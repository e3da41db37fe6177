import QueryCraft.Json

/-!
Records and variants in JSON. A record is an object with its fields in any order and other entries
besides, or an array of exactly its fields. A variant is an object with one entry, or a bare name.
-/

namespace QueryCraft.Json

/-- The entry with the given key, if any; none if the key is repeated. -/
def entryOnce (key : String) (entries : List (String × Json)) : Option (Option Json) :=
  match entries.filter (·.1 == key) with
  | [] => some none
  | [(_, j)] => some (some j)
  | _ => none

/-- The fields of a record; an absent one counts as null. -/
def record (names : List String) : Json → Option (List Json)
  | .object entries => names.mapM fun name => (entryOnce name entries).map (·.getD .null)
  | .array items => if items.length = names.length then some items else none
  | _ => none

/-- The name of a variant, and what it holds. -/
def variant? : Json → Option (String × Option Json)
  | .string name => some (name, none)
  | .object [(name, j)] => some (name, some j)
  | _ => none

/-- A variant that holds nothing; it may hold null instead. -/
def emptyVariant? (j : Json) : Option String :=
  match variant? j with
  | some (name, none) | some (name, some .null) => some name
  | _ => none

def toString? : Json → Option String
  | .string text => some text
  | _ => none

def toBool? : Json → Option Bool
  | .bool b => some b
  | _ => none

/-- Null, or what `decode` reads. -/
def nullable {α : Type} (decode : Json → Option α) : Json → Option (Option α)
  | .null => some none
  | j => (decode j).map some

def toList? {α : Type} (decode : Json → Option α) : Json → Option (List α)
  | .array items => items.mapM decode
  | _ => none

end QueryCraft.Json
