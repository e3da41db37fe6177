import QueryCraft.Document.Fold
import QueryCraft.Proofs.Document.Mapping

/-!
Folds that replace arguments and definitions and keep account of the arguments. Everything stays in
its place, and the account is over all arguments before the first definition is replaced.
-/

namespace QueryCraft.Folder

/-- Replaces the arguments by `f` and notes each of them; replaces the variable definitions by what
`g` makes of the notes. -/
def noting {σ : Type} (note : σ → Argument → σ) (f : Argument → Argument)
    (g : σ → VariableDefinition → VariableDefinition) : Folder (StateM σ) where
  onArgument a := modifyGet fun s => (f a, note s a)
  onDefinition d := do return g (← get) d

/-- The arguments of an operation in the order in which a fold visits them. -/
def visited (op : Operation) : List Argument :=
  Selection.listArguments op.selections ++ Directive.allArguments op.directives

theorem mem_visited {op : Operation} {a : Argument} : a ∈ visited op ↔ a ∈ op.allArguments := by
  simp only [visited, Operation.allArguments, List.mem_append, or_comm]

theorem run_bind_eq {σ α β : Type} {x : StateM σ α} {s t : σ} {a : α} (h : x.run s = (a, t))
    (k : α → StateM σ β) : (x >>= k).run s = (k a).run t := by
  rw [StateT.run_bind, h]
  rfl

section Noting

variable {σ : Type} (note : σ → Argument → σ) (f : Argument → Argument)
  (g : σ → VariableDefinition → VariableDefinition)

@[simp]
theorem visit_noting (v : Visit) : (noting note f g).visit v = pure () :=
  rfl

@[simp]
theorem keeps_noting (field : Field) : (noting note f g).keeps field = true :=
  rfl

theorem arguments_noting (as : List Argument) (s : σ) :
    ((noting note f g).arguments as).run s = (as.map f, as.foldl note s) := by
  induction as generalizing s with
  | nil => rfl
  | cons a as ih =>
    have ha : ((noting note f g).argument a).run s = (f a, note s a) := rfl
    rw [arguments, run_bind_eq ha, run_bind_eq (ih (note s a))]
    rfl

theorem directive_noting (d : Directive) (s : σ) :
    ((noting note f g).directive d).run s = (d.map f, d.arguments.foldl note s) := by
  rw [directive, visit_noting, pure_bind, run_bind_eq (arguments_noting note f g d.arguments s)]
  rfl

theorem directives_noting (ds : List Directive) (s : σ) :
    ((noting note f g).directives ds).run s =
      (ds.map (Directive.map f), (Directive.allArguments ds).foldl note s) := by
  induction ds generalizing s with
  | nil => rfl
  | cons d ds ih =>
    have hall : Directive.allArguments (d :: ds) =
        d.arguments ++ Directive.allArguments ds := rfl
    rw [directives, run_bind_eq (directive_noting note f g d s), run_bind_eq (ih _), hall,
      List.foldl_append]
    rfl

theorem field_noting (field : Field) (s : σ) :
    ((noting note f g).field field).run s = (field.map f, field.allArguments.foldl note s) := by
  rw [Folder.field, run_bind_eq (arguments_noting note f g field.arguments s),
    run_bind_eq (directives_noting note f g field.directives _), Field.allArguments,
    List.foldl_append]
  rfl

theorem selections_noting {path : List String} {us : List Selection}
    (h : ∀ u ∈ us, ∀ s, ((noting note f g).selection path u).run s =
      (some (u.map f), u.allArguments.foldl note s)) (s : σ) :
    ((noting note f g).selections path us).run s =
      (Selection.mapAll f us, (Selection.listArguments us).foldl note s) := by
  induction us generalizing s with
  | nil => rfl
  | cons u us ih =>
    rw [List.forall_mem_cons] at h
    rw [selections, run_bind_eq (h.1 s), run_bind_eq (ih h.2 _), Selection.listArguments,
      List.foldl_append]
    rfl

theorem selection_noting (u : Selection) (path : List String) (s : σ) :
    ((noting note f g).selection path u).run s =
      (some (u.map f), u.allArguments.foldl note s) := by
  induction u using Selection.inductOn generalizing path s with
  | leaf field =>
    rw [selection, visit_noting, pure_bind, keeps_noting, if_pos rfl,
      run_bind_eq (field_noting note f g field s)]
    rfl
  | verbatim node => rfl
  | branch field children ih =>
    have hchildren := selections_noting note f g
      fun u hu => ih u hu (path ++ [field.responseName])
    rw [selection, visit_noting, pure_bind, keeps_noting, if_pos rfl,
      run_bind_eq (field_noting note f g field s), visit_noting, pure_bind,
      run_bind_eq (hchildren _), Selection.allArguments, List.foldl_append]
    rfl

theorem definitions_noting (ds : List VariableDefinition) (s : σ) :
    ((noting note f g).definitions ds).run s = (ds.map (g s), s) := by
  induction ds with
  | nil => rfl
  | cons d ds ih =>
    have hd : ((noting note f g).onDefinition d).run s = (g s d, s) := rfl
    rw [definitions, visit_noting, pure_bind, run_bind_eq hd, run_bind_eq ih]
    rfl

theorem document_noting (d : Document) (s : σ) :
    ((noting note f g).document d).run s =
      (d.map f (g ((visited d.operation).foldl note s)),
        (visited d.operation).foldl note s) := by
  have hselections := selections_noting note f g
    (fun u (_ : u ∈ d.operation.selections) => selection_noting note f g u []) s
  have hoperation : ((noting note f g).operation d.operation).run s =
      (d.operation.map f (g ((visited d.operation).foldl note s)),
        (visited d.operation).foldl note s) := by
    rw [visited, List.foldl_append]
    rw [operation, visit_noting, pure_bind, visit_noting, pure_bind, run_bind_eq hselections,
      run_bind_eq (directives_noting note f g _ _), run_bind_eq (definitions_noting note f g _ _)]
    rfl
  rw [document, visit_noting, pure_bind, run_bind_eq hoperation]
  rfl

end Noting

section Except

variable {ε : Type} {f : Argument → Except ε Argument}

/-- Why a replacement fails on an argument, if it does. -/
def failure? (f : Argument → Except ε Argument) (a : Argument) : Option ε :=
  match f a with
  | .ok _ => none
  | .error e => some e

/-- What a replacement that may fail makes of an argument on which it succeeds. -/
def result (f : Argument → Except ε Argument) (a : Argument) : Argument :=
  match f a with
  | .ok b => b
  | .error _ => a

/-- The failure, if there is one, or else the value. -/
def outcome {α : Type} (failure : Option ε) (a : α) : Except ε α :=
  match failure with
  | none => .ok a
  | some e => .error e

theorem outcome_ok_iff {α : Type} {failure : Option ε} {a b : α} :
    outcome failure a = .ok b ↔ failure = none ∧ b = a := by
  cases failure <;> simp [outcome, eq_comm]

theorem outcome_error_iff {α : Type} {failure : Option ε} {a : α} {e : ε} :
    outcome failure a = .error e ↔ failure = some e := by
  cases failure <;> simp [outcome]

theorem failure?_eq_none_iff {a : Argument} : failure? f a = none ↔ f a = .ok (result f a) := by
  unfold failure? result
  cases f a <;> simp

end Except

end QueryCraft.Folder
