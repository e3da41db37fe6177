import QueryCraft.Document.Arguments
import QueryCraft.Document.Fold
import QueryCraft.Edit.Coercion

/-!
Giving every argument of one name a new value. A literal is replaced in its kind; a variable keeps
its place and its definition gets the value as default. A variable as new value takes the arguments
over, and with them a definition that nothing refers to any more.
-/

namespace QueryCraft

/-- What is found out about the arguments of one name while they are given a value: how many there
are, why the first literal refuses the value, and which variables the arguments stay bound to or are
bound to no longer. -/
structure Rewriting where
  rewrites : Nat := 0
  error : Option EditError := none
  bound : List String := []
  replaced : List String := []

/-- Gives an argument the value `v` if it is named `name`. -/
def Argument.rewrite (name : String) (v : Value) (a : Argument) : StateM Rewriting Argument := do
  if a.name = name then
    modify fun r => { r with rewrites := r.rewrites + 1 }
    match v, a.value with
    | .var x, .var y =>
      if y ≠ x then
        modify fun r => { r with replaced := r.replaced.insert y }
      return { a with value := .var x }
    | .var x, _ => return { a with value := .var x }
    | _, .var y =>
      modify fun r => { r with bound := r.bound.insert y }
      return a
    | _, _ =>
      match v.conform a.value with
      | .ok new => return { a with value := new }
      | .error expected =>
        modify fun r => { r with error := r.error.or (some (.coercion name v.rawText expected)) }
        return a
  else
    return a

/-- Gives the variables in `bound` the default `v`. -/
def VariableDefinition.assign (bound : List String) (v : Value) (d : VariableDefinition) :
    VariableDefinition :=
  if bound.contains d.name then { d with default := some v } else d

/-- Gives the arguments named `name` the value `v`, and the variables that they stay bound to this
default. -/
def Folder.rewriting (name : String) (v : Value) : Folder (StateM Rewriting) where
  onArgument := Argument.rewrite name v
  onDefinition d := do return d.assign (← get).bound v

/-- The document with the value given, and what has been found out about the arguments. -/
def Document.rewrite (name : String) (v : Value) (d : Document) : Document × Rewriting :=
  ((Folder.rewriting name v).document d).run {}

/-- Drops orphaned definitions; the first of them takes the name `x` if that is not defined yet.
None if `x` is not defined in the end. -/
def VariableDefinition.takeOver (x : String) (isOrphan : String → Bool) :
    Bool → List VariableDefinition → Option (List VariableDefinition)
  | defined, [] => if defined then some [] else none
  | defined, d :: ds =>
    if !isOrphan d.name then (takeOver x isOrphan defined ds).map (d :: ·)
    else if defined then takeOver x isOrphan true ds
    else (takeOver x isOrphan true ds).map ({ d with name := x } :: ·)

/-- Lets `x` take over from those of the replaced variables that nothing refers to. -/
def Document.takeOver (x : String) (replaced : List String) (d : Document) :
    Except EditError Document :=
  let isOrphan (y : String) : Bool := replaced.contains y && !d.mentions y
  match VariableDefinition.takeOver x isOrphan (d.operation.definition? x).isSome
      d.operation.definitions with
  | some definitions => .ok { d with operation := { d.operation with definitions } }
  | none => .error (.undefinedVariable x)

/-- Gives the arguments named `name` the value `v`. -/
def Document.setArgument (name : String) (v : Value) (d : Document) : Except EditError Document :=
  let (rewritten, r) := d.rewrite name v
  match r.error with
  | some error => .error error
  | none =>
    if r.rewrites = 0 then .ok d
    else
      match v with
      | .var x => rewritten.takeOver x r.replaced
      | _ => .ok rewritten

/-- The value that a text stands for as an argument: by the declared type of the variable to which
the argument is bound, or by the literal it holds. -/
def Document.argumentValue (raw : String) (current : Value) (d : Document) :
    Except Expectation Value :=
  match current with
  | .var x =>
    match d.operation.definition? x with
    | some definition => Value.ofText raw definition.type
    | none => .ok ((Value.literal? raw.toList).getD (.string raw))
  | current => Value.ofTextLike raw current

/-- Gives the arguments named `name` the value that a text stands for. -/
def Document.setArgumentText (name raw : String) (d : Document) : Except EditError Document :=
  match d.operation.argument? name with
  | none => .ok d
  | some current =>
    match d.argumentValue raw current with
    | .ok v => d.setArgument name v
    | .error expected => .error (.coercion name raw expected)

end QueryCraft
