import QueryCraft.Number.Digits

/-!
Names for the variables of one operation. The first request for a name gets it; later ones get it
with a number behind it, counted from 1 and passing over what is taken.
-/

namespace QueryCraft

/-- The names given so far, and for each name the number to try next. -/
structure VariableNames where
  taken : List String
  nextNumber : List (String × Nat)

namespace VariableNames

def empty : VariableNames :=
  ⟨[], []⟩

def numbered (name : String) (n : Nat) : String :=
  name ++ String.ofList (Number.natDigits n)

/-- The first number from `n` on whose name is free. Of more candidates than names taken, one is. -/
def firstFree (taken : List String) (name : String) : Nat → Nat → Nat
  | 0, n => n
  | candidates + 1, n =>
    if taken.contains (numbered name n) then firstFree taken name candidates (n + 1) else n

/-- The name for a request, and the names afterwards. -/
def allocate (names : VariableNames) (name : String) : String × VariableNames :=
  if names.taken.contains name then
    let n := firstFree names.taken name names.taken.length ((names.nextNumber.lookup name).getD 1)
    let given := numbered name n
    (given, ⟨given :: names.taken, (name, n + 1) :: names.nextNumber⟩)
  else
    (name, { names with taken := name :: names.taken })

/-- The names for requests in order. -/
def allocateAll (names : VariableNames) : List String → List String
  | [] => []
  | request :: requests =>
    let (given, names) := names.allocate request
    given :: names.allocateAll requests

end VariableNames

end QueryCraft
