import QueryCraft.Number.Digits
import QueryCraft.Text.Search

/-!
Reading the arguments of a command: options in any place, and positional arguments. The scan ends at
the first argument that does not fit, or that asks for help.
-/

namespace QueryCraft.CommandLine

/-- How many values an option takes. One that takes any number takes all arguments up to the next
that looks like an option. -/
inductive Arity where
  | none
  | one
  | any
  deriving DecidableEq, Repr

/-- What a value has to be; a list is split at its commas. -/
inductive ValueKind where
  | text
  | number
  | list
  deriving DecidableEq, Repr

structure OptionSpec where
  name : String
  arity : Arity
  values : ValueKind
  repeatable : Bool

/-- The arguments that a command takes; `maxPositionals` bounds the positional ones. -/
structure Usage where
  options : List OptionSpec
  maxPositionals : Option Nat

/-- Why a scan ends early. -/
inductive Stop where
  | invalid
  | help
  deriving DecidableEq, Repr

/-- The options given, each with the values of one occurrence, and the positional arguments. -/
structure Given where
  options : List (String × List String)
  positionals : List String

namespace Given

def empty : Given :=
  ⟨[], []⟩

def has (g : Given) (name : String) : Bool :=
  g.options.any (·.1 == name)

/-- The values of all occurrences of an option. -/
def values (g : Given) (name : String) : List String :=
  (g.options.filter (·.1 == name)).flatMap Prod.snd

def value? (g : Given) (name : String) : Option String :=
  (g.values name).head?

def number? (g : Given) (name : String) : Option Nat :=
  (g.value? name).bind fun v => Number.word64? v.toList

end Given

/-- The values that the text of one value stands for. -/
def ValueKind.split (kind : ValueKind) (text : String) : Except Stop (List String) :=
  match kind with
  | .text => .ok [text]
  | .number => if (Number.word64? text.toList).isSome then .ok [text] else .error .invalid
  | .list => .ok ((Text.splitOn ',' text.toList).map String.ofList)

/-- Takes in an occurrence of an option. -/
def Given.addOption (g : Given) (o : OptionSpec) (texts : List String) : Except Stop Given :=
  if g.has o.name && !o.repeatable then .error .invalid
  else do
    let values ← texts.mapM o.values.split
    .ok { g with options := g.options ++ [(o.name, values.flatten)] }

/-- Takes in one positional argument, which may not be empty. -/
def Given.addPositional (u : Usage) (g : Given) (text : String) : Except Stop Given :=
  if text = "" || u.maxPositionals.any (· ≤ g.positionals.length) then .error .invalid
  else .ok { g with positionals := g.positionals ++ [text] }

/-- Whether an argument starts with a hyphen and has more than that. -/
def looksLikeOption (text : String) : Bool :=
  match text.toList with
  | '-' :: _ :: _ => true
  | _ => false

/-- A long option without its hyphens: its name, and the value behind an equals sign. -/
def splitLong (cs : List Char) : String × Option String :=
  let name := String.ofList (cs.takeWhile (· != '='))
  match cs.dropWhile (· != '=') with
  | [] => (name, none)
  | _ :: value => (name, some (String.ofList value))

/-- An option that has been named and still waits for values. -/
structure Waiting where
  spec : OptionSpec
  texts : List String

/-- Ends an option's wait for values. -/
def Given.settle (g : Given) : Option Waiting → Except Stop Given
  | none => .ok g
  | some w =>
    if w.spec.arity = .one then .error .invalid else g.addOption w.spec w.texts

/-- Takes in an argument that looks like an option. -/
def Usage.scanOption (u : Usage) (g : Given) (text : String) :
    Except Stop (Given × Option Waiting) :=
  match text.toList with
  | '-' :: '-' :: cs =>
    let (name, value) := splitLong cs
    if name = "help" then .error (if value.isSome then .invalid else .help)
    else
      match u.options.find? (·.name == name), value with
      | none, _ => .error .invalid
      | some o, some v =>
        if o.arity = .none then .error .invalid else (g.addOption o [v]).map fun g => (g, none)
      | some o, none =>
        if o.arity = .none then (g.addOption o []).map fun g => (g, none)
        else .ok (g, some ⟨o, []⟩)
  | '-' :: 'h' :: _ => .error .help
  | _ => .error .invalid

/-- Takes in the arguments, the option in front of them waiting for values. Behind two hyphens all
arguments are positional. -/
def Usage.scan (u : Usage) (g : Given) (waiting : Option Waiting) :
    List String → Except Stop Given
  | [] => g.settle waiting
  | text :: texts =>
    if looksLikeOption text then do
      let g ← g.settle waiting
      if text = "--" then texts.foldlM (Given.addPositional u) g
      else
        let (g, waiting) ← u.scanOption g text
        u.scan g waiting texts
    else
      match waiting with
      | none => do
        let g ← g.addPositional u text
        u.scan g none texts
      | some w =>
        if w.spec.arity = .any then u.scan g (some { w with texts := w.texts ++ [text] }) texts
        else do
          let g ← g.addOption w.spec [text]
          u.scan g none texts

def Usage.read (u : Usage) (arguments : List String) : Except Stop Given :=
  u.scan .empty none arguments

end QueryCraft.CommandLine
