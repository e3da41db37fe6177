import QueryCraft.Value

/-!
Looking for a variable in values. The search goes through a list of values, in which a list or an
object is replaced by what it holds.
-/

namespace QueryCraft.Value

mutual

/-- The number of values in a value, itself included. -/
def count : Value → Nat
  | .list items => 1 + countItems items
  | .object entries => 1 + countEntries entries
  | _ => 1

def countItems : List Value → Nat
  | [] => 0
  | v :: vs => count v + countItems vs

def countEntries : List (String × Value) → Nat
  | [] => 0
  | (_, v) :: es => count v + countEntries es

end

/-- The values that a value holds. -/
def parts : Value → List Value
  | .list items => items
  | .object entries => entries.map Prod.snd
  | _ => []

def isVar (x : String) : Value → Bool
  | .var name => name == x
  | _ => false

theorem countItems_append (vs ws : List Value) :
    countItems (vs ++ ws) = countItems vs + countItems ws := by
  induction vs with
  | nil => simp [countItems]
  | cons v vs ih => simp only [List.cons_append, countItems, ih, Nat.add_assoc]

theorem countItems_map_snd (entries : List (String × Value)) :
    countItems (entries.map Prod.snd) = countEntries entries := by
  induction entries with
  | nil => rfl
  | cons e es ih => simp only [List.map_cons, countItems, countEntries, ih]

theorem countItems_parts (v : Value) : countItems v.parts + 1 = v.count := by
  cases v with
  | list items => rw [parts, count, Nat.add_comm]
  | object entries => rw [parts, count, countItems_map_snd, Nat.add_comm]
  | _ => rfl

/-- Whether one of some values is the variable `x` or has it inside. -/
def anyMentions (x : String) : List Value → Bool
  | [] => false
  | v :: rest => v.isVar x || anyMentions x (v.parts ++ rest)
termination_by vs => countItems vs
decreasing_by
  have hparts := v.countItems_parts
  simp only [countItems_append, countItems]
  omega

end QueryCraft.Value
