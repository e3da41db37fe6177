import QueryCraft.Field

/-!
Documents: one query operation as a tree of selections, and everything else kept verbatim.
-/

namespace QueryCraft

/-- Parts of a document that are carried without being interpreted. -/
inductive Verbatim.Kind where
  | fragmentDefinition
  | fragmentSpread
  | inlineFragment
  | mutation
  | query
  | subscription
  deriving DecidableEq, Repr

def Verbatim.Kind.name : Verbatim.Kind → String
  | .fragmentDefinition => "FragmentDefinition"
  | .fragmentSpread => "FragmentSpread"
  | .inlineFragment => "InlineFragment"
  | .mutation => "Mutation"
  | .query => "Query"
  | .subscription => "Subscription"

def Verbatim.Kind.all : List Verbatim.Kind :=
  [.fragmentDefinition, .fragmentSpread, .inlineFragment, .mutation, .query, .subscription]

structure Verbatim where
  kind : Verbatim.Kind
  source : String
  deriving DecidableEq, Repr

/-- A leaf has no selection set; the set of a branch may be empty. -/
inductive Selection where
  | leaf (field : Field)
  | branch (field : Field) (children : List Selection)
  | verbatim (node : Verbatim)

structure Operation where
  name : Option String
  definitions : List VariableDefinition
  directives : List Directive
  selections : List Selection

structure Document where
  operation : Operation
  auxiliary : List Verbatim

namespace Selection

def field? : Selection → Option Field
  | .leaf f | .branch f _ => some f
  | .verbatim _ => none

/-- The selections below a field that has a selection set. -/
def children? : Selection → Option (List Selection)
  | .branch _ children => some children
  | .leaf _ | .verbatim _ => none

mutual

/-- Equality, where values are compared with `Value.same`. -/
def same : Selection → Selection → Bool
  | .leaf f, .leaf g => f.same g
  | .branch f ss, .branch g ts => f.same g && sameAll ss ts
  | .verbatim a, .verbatim b => a == b
  | _, _ => false

def sameAll : List Selection → List Selection → Bool
  | [], [] => true
  | s :: ss, t :: ts => same s t && sameAll ss ts
  | _, _ => false

end

end Selection

/-- The first definition of the variable `x`. -/
def Operation.definition? (op : Operation) (x : String) : Option VariableDefinition :=
  op.definitions.find? (·.name == x)

def Operation.same (a b : Operation) : Bool :=
  a.name == b.name && sameLists VariableDefinition.same a.definitions b.definitions &&
    sameLists Directive.same a.directives b.directives &&
    Selection.sameAll a.selections b.selections

def Document.same (d e : Document) : Bool :=
  d.operation.same e.operation && d.auxiliary == e.auxiliary

def Document.fragments (d : Document) : List Verbatim :=
  d.auxiliary.filter (·.kind == .fragmentDefinition)

end QueryCraft
