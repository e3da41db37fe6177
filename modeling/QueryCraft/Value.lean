import QueryCraft.Text.Name

/-!
The values that arguments and defaults hold, their kinds, and equality of values up to the order of
object entries.
-/

namespace QueryCraft

/-- A literal or a reference to a variable. -/
inductive Value where
  | null
  | boolean (b : Bool)
  | int (n : Int64)
  | float (x : Float)
  | string (text : String)
  | enum (name : String)
  | var (name : String)
  | list (items : List Value)
  | object (entries : List (String × Value))
  deriving Inhabited

namespace Value

inductive Kind where
  | null
  | boolean
  | int
  | float
  | string
  | enum
  | var
  | list
  | object
  deriving DecidableEq, Repr

def kind : Value → Kind
  | .null => .null
  | .boolean _ => .boolean
  | .int _ => .int
  | .float _ => .float
  | .string _ => .string
  | .enum _ => .enum
  | .var _ => .var
  | .list _ => .list
  | .object _ => .object

def Kind.name : Kind → String
  | .null => "NullValue"
  | .boolean => "BooleanValue"
  | .int => "IntValue"
  | .float => "FloatValue"
  | .string => "StringValue"
  | .enum => "EnumValue"
  | .var => "Variable"
  | .list => "ListValue"
  | .object => "ObjectValue"

/-- The value that a bare name stands for. -/
def ofName (name : String) : Value :=
  if name = "true" then .boolean true
  else if name = "false" then .boolean false
  else if name = "null" then .null
  else .enum name

/-- Puts an entry into entries sorted by key; an entry with the same key is replaced. -/
def insertEntry (key : String) (v : Value) : List (String × Value) → List (String × Value)
  | [] => [(key, v)]
  | (k, w) :: es =>
    if key < k then (key, v) :: (k, w) :: es
    else if key = k then (key, v) :: es
    else (k, w) :: insertEntry key v es

/-- The object with the given entries, sorted by key. A repeated key keeps its last value. -/
def sortedObject (entries : List (String × Value)) : Value :=
  .object (entries.foldl (fun es (e : String × Value) => insertEntry e.1 e.2 es) [])

mutual

/-- Equality up to the order of object entries. Floats are equal as numbers, so zeros of both signs
are, and what is not a number is not. -/
def same : Value → Value → Bool
  | .null, .null => true
  | .boolean a, .boolean b => a == b
  | .int a, .int b => a == b
  | .float a, .float b => a == b
  | .string a, .string b => a == b
  | .enum a, .enum b => a == b
  | .var a, .var b => a == b
  | .list as, .list bs => sameItems as bs
  | .object es, .object fs => es.length == fs.length && sameEntries es fs
  | _, _ => false

def sameItems : List Value → List Value → Bool
  | [], [] => true
  | a :: as, b :: bs => same a b && sameItems as bs
  | _, _ => false

/-- Each of the first entries has a counterpart of the same key among the second ones. -/
def sameEntries : List (String × Value) → List (String × Value) → Bool
  | [], _ => true
  | (k, v) :: es, fs =>
    (match fs.lookup k with
      | some w => same v w
      | none => false) && sameEntries es fs

end

mutual

/-- Whether the variable `x` occurs at any depth. -/
def mentions (x : String) : Value → Bool
  | .var name => name == x
  | .list items => itemsMention x items
  | .object entries => entriesMention x entries
  | _ => false

def itemsMention (x : String) : List Value → Bool
  | [] => false
  | v :: vs => mentions x v || itemsMention x vs

def entriesMention (x : String) : List (String × Value) → Bool
  | [] => false
  | (_, v) :: es => mentions x v || entriesMention x es

end

mutual

/-- Whether no variable occurs at any depth. -/
def isConstant : Value → Bool
  | .var _ => false
  | .list items => itemsConstant items
  | .object entries => entriesConstant entries
  | _ => true

def itemsConstant : List Value → Bool
  | [] => true
  | v :: vs => isConstant v && itemsConstant vs

def entriesConstant : List (String × Value) → Bool
  | [] => true
  | (_, v) :: es => isConstant v && entriesConstant es

end

end Value

end QueryCraft
