import QueryCraft.Edit.Binding
import QueryCraft.Proofs.Document.Folding
import QueryCraft.Proofs.Edit.Coercion

/-!
The fold that gives the arguments of one name a value. It treats each argument by itself, and in the
end it knows of all of them: how many have the name, the failure of the first that fails, and the
variables they were bound to.
-/

namespace QueryCraft

namespace Argument

/-- Replaces the literals of the arguments named `name`. -/
def assign (name : String) (v : Value) (a : Argument) : Except EditError Argument :=
  if a.name = name ∧ a.value.kind ≠ .var then
    match v.conform a.value with
    | .ok new => .ok { a with value := new }
    | .error expected => .error (.coercion name v.rawText expected)
  else
    .ok a

/-- Binds the arguments named `name` to the variable `x`. -/
def rebind (name x : String) (a : Argument) : Argument :=
  if a.name = name then { a with value := .var x } else a

/-- What becomes of an argument, without regard to the others. -/
def given (name : String) (v : Value) (a : Argument) : Except EditError Argument :=
  match v with
  | .var x => .ok (a.rebind name x)
  | v => a.assign name v

variable {name : String} {v : Value} {a : Argument}

theorem given_of_literal (hv : v.kind ≠ .var) : given name v = assign name v := by
  cases v with
  | var x => exact absurd rfl hv
  | _ => rfl

theorem given_of_ne (h : a.name ≠ name) : a.given name v = .ok a := by
  unfold given
  split
  · rw [rebind, if_neg h]
  · rw [assign, if_neg fun hcond => h hcond.1]

end Argument

namespace Rewriting

variable {name : String} {v : Value} {as bs : List Argument} {r s t : Rewriting}

/-- What is known after some arguments, if it was `r` before. -/
structure Noted (name : String) (v : Value) (as : List Argument) (r t : Rewriting) : Prop where
  rewrites_eq : t.rewrites = r.rewrites + as.countP (·.name == name)
  error_eq : t.error = r.error.or (as.findSome? (Folder.failure? (Argument.given name v)))
  mem_bound_iff : ∀ y, y ∈ t.bound ↔
    y ∈ r.bound ∨ v.kind ≠ .var ∧ ∃ a ∈ as, a.name = name ∧ a.value = .var y
  mem_replaced_iff : ∀ y, y ∈ t.replaced ↔
    y ∈ r.replaced ∨ v.kind = .var ∧ v ≠ .var y ∧ ∃ a ∈ as, a.name = name ∧ a.value = .var y

theorem Noted.nil : Noted name v [] r r := by
  constructor <;> simp

theorem Noted.append (hs : Noted name v as r s) (ht : Noted name v bs s t) :
    Noted name v (as ++ bs) r t where
  rewrites_eq := by rw [ht.rewrites_eq, hs.rewrites_eq, List.countP_append, Nat.add_assoc]
  error_eq := by rw [ht.error_eq, hs.error_eq, List.findSome?_append, Option.or_assoc]
  mem_bound_iff y := by
    simp only [ht.mem_bound_iff, hs.mem_bound_iff, List.mem_append, or_and_right, exists_or,
      and_or_left, or_assoc]
  mem_replaced_iff y := by
    simp only [ht.mem_replaced_iff, hs.mem_replaced_iff, List.mem_append, or_and_right,
      exists_or, and_or_left, or_assoc]

end Rewriting

namespace Argument

variable {name : String} {v : Value} {a : Argument}

/-- A variable takes an argument over, and replaces another one that it was bound to. -/
theorem run_rewrite_var (h : a.name = name) (x : String) (r : Rewriting) :
    ∃ replaced, (a.rewrite name (.var x)).run r =
        ({ a with value := .var x }, { r with rewrites := r.rewrites + 1, replaced }) ∧
      ∀ y, y ∈ replaced ↔ y ∈ r.replaced ∨ a.value = .var y ∧ x ≠ y := by
  unfold rewrite
  rw [if_pos h]
  cases hvalue : a.value with
  | var z =>
    by_cases hz : z = x
    · simp only [hz, ne_eq, not_true_eq_false, if_false]
      exact ⟨_, rfl, by grind⟩
    · simp only [ne_eq, hz, not_false_eq_true, if_true]
      exact ⟨_, rfl, by grind⟩
  | _ => exact ⟨_, rfl, by grind⟩

/-- A literal leaves an argument bound to its variable, or it is put in the place of a literal. -/
theorem run_rewrite_literal (hv : v.kind ≠ .var) (h : a.name = name) (r : Rewriting) :
    ∃ bound, (a.rewrite name v).run r =
        (Folder.result (assign name v) a,
          { r with
            rewrites := r.rewrites + 1
            error := r.error.or (Folder.failure? (assign name v) a)
            bound }) ∧
      ∀ y, y ∈ bound ↔ y ∈ r.bound ∨ a.value = .var y := by
  unfold rewrite Folder.result Folder.failure? assign
  rw [if_pos h]
  split
  · exact absurd rfl hv
  · exact absurd rfl hv
  · next y _ hvalue =>
    have hkind : ¬(a.name = name ∧ a.value.kind ≠ .var) := by simp [hvalue, Value.kind]
    simp only [if_neg hkind, Option.or_none]
    exact ⟨_, rfl, by grind⟩
  · next w _ _ _ hliteral _ =>
    have hkind : a.value.kind ≠ .var := by
      intro hkind
      obtain ⟨y, hy⟩ := Value.kind_eq_var_iff.mp hkind
      exact hliteral y hy
    simp only [if_pos (And.intro h hkind)]
    refine ⟨r.bound, ?_, by grind⟩
    cases w.conform a.value with
    | ok new => simp only [Option.or_none]; rfl
    | error expected => rfl

/-- Each argument is treated by itself, and noted. -/
theorem run_rewrite (name : String) (v : Value) (a : Argument) (r : Rewriting) :
    ∃ t, (a.rewrite name v).run r = (Folder.result (given name v) a, t) ∧
      Rewriting.Noted name v [a] r t := by
  by_cases h : a.name = name
  · by_cases hv : v.kind = .var
    · obtain ⟨x, rfl⟩ := Value.kind_eq_var_iff.mp hv
      obtain ⟨replaced, hrun, hreplaced⟩ := run_rewrite_var h x r
      have hgiven : a.given name (.var x) = .ok { a with value := .var x } := by
        rw [given, rebind, if_pos h]
      rw [Folder.result, hgiven]
      refine ⟨_, hrun, ?_⟩
      constructor
      case rewrites_eq => simp [h]
      case error_eq => simp [Folder.failure?, hgiven]
      case mem_bound_iff => simp [hv]
      case mem_replaced_iff =>
        intro y
        simp [hreplaced, h, hv, and_comm, eq_comm]
    · obtain ⟨bound, hrun, hbound⟩ := run_rewrite_literal hv h r
      rw [given_of_literal hv]
      refine ⟨_, hrun, ?_⟩
      constructor <;> simp [h, hv, hbound, given_of_literal hv]
  · have hgiven : a.given name v = .ok a := given_of_ne h
    refine ⟨r, ?_, ?_⟩
    · unfold rewrite
      rw [if_neg h, Folder.result, hgiven]
      rfl
    · constructor <;> simp [h, Folder.failure?, hgiven]

end Argument

namespace Rewriting

variable {name : String} {v : Value}

/-- What is known after one more argument. -/
def note (name : String) (v : Value) (r : Rewriting) (a : Argument) : Rewriting :=
  ((a.rewrite name v).run r).2

theorem noted_note (r : Rewriting) (a : Argument) : Noted name v [a] r (note name v r a) := by
  obtain ⟨t, hrun, hnoted⟩ := a.run_rewrite name v r
  rwa [note, hrun]

theorem noted_foldl (as : List Argument) (r : Rewriting) :
    Noted name v as r (as.foldl (note name v) r) := by
  induction as generalizing r with
  | nil => exact .nil
  | cons a as ih => exact (noted_note r a).append (ih (note name v r a))

end Rewriting

theorem Folder.rewriting_eq (name : String) (v : Value) :
    rewriting name v = noting (Rewriting.note name v) (result (Argument.given name v))
      fun r => VariableDefinition.assign r.bound v := by
  have hargument : Argument.rewrite name v = fun a => modifyGet fun r =>
      (result (Argument.given name v) a, Rewriting.note name v r a) := by
    funext a r
    obtain ⟨t, hrun, -⟩ := a.run_rewrite name v r
    show (a.rewrite name v).run r = (_, ((a.rewrite name v).run r).2)
    rw [hrun]
  rw [rewriting, hargument, noting]

/-- In the end every argument has been treated by itself, and all of them have been noted. -/
theorem Document.rewrite_eq (name : String) (v : Value) (d : Document) :
    ∃ r, Rewriting.Noted name v (Folder.visited d.operation) {} r ∧
      d.rewrite name v = (d.map (Folder.result (Argument.given name v))
        (VariableDefinition.assign r.bound v), r) := by
  refine ⟨_, Rewriting.noted_foldl _ {}, ?_⟩
  rw [rewrite, Folder.rewriting_eq, Folder.document_noting]

end QueryCraft
