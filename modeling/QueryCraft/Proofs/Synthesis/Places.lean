import QueryCraft.Proofs.Synthesis.Variables

/-!
The places of a tree in a schema. Below a field come the fields of the type it returns, in order, so
every field of a tree has the field of the schema that it selects, and the way that leads to it from
the root.
-/

namespace QueryCraft

namespace SelectionTree

def isExpanded : SelectionTree → Bool
  | .node .. => true
  | .leaf _ | .truncated _ => false

theorem heads_eq (t : SelectionTree) : t.heads = t.head :: headsOf t.children := by
  cases t <;> rfl

end SelectionTree

namespace Schema

/-- A field of a tree with what it selects in the schema and what the fields above it select, the
nearest first. -/
structure Place where
  above : List Child
  child : Child
  tree : SelectionTree

def Place.head (p : Place) : TreeHead :=
  p.tree.head

/-- Above the root there is nothing. -/
def Place.isRoot (p : Place) : Bool :=
  p.above.isEmpty

/-- The types that are expanded on the way from the root to the field, its own included. -/
def Place.expandedTypes (p : Place) : List String :=
  if p.tree.isExpanded then (p.child :: p.above).filterMap Child.type?
  else p.above.filterMap Child.type?

/-- What can be selected below a field. -/
def below (s : Schema) : Child → List Child
  | .field f => (s.find? f.type.innermost).elim [] NamedType.selectable
  | .typename => []

mutual

/-- The places of a tree that selects something below other fields, each in front of those of its
children. -/
def placesOf (s : Schema) (above : List Child) (c : Child) : SelectionTree → List Place
  | .leaf h => [⟨above, c, .leaf h⟩]
  | .truncated h => [⟨above, c, .truncated h⟩]
  | .node h ts => ⟨above, c, .node h ts⟩ :: placesAmong s (c :: above) (s.below c) ts

def placesAmong (s : Schema) (above : List Child) : List Child → List SelectionTree → List Place
  | c :: cs, t :: ts => placesOf s above c t ++ placesAmong s above cs ts
  | [], _ | _, [] => []

end

theorem placesAmong_nil (s : Schema) (above : List Child) (ts : List SelectionTree) :
    s.placesAmong above [] ts = [] := by
  cases ts <;> rfl

/-- The places of a tree for a field that nothing is above. -/
def places (s : Schema) (f : Field) (t : SelectionTree) : List Place :=
  s.placesOf [] (.field f) t

theorem places_eq (s : Schema) (f : Field) (t : SelectionTree) :
    s.places f t = s.placesAmong [] [.field f] [t] := by
  simp [places, placesAmong]

theorem below_of_opens {s : Schema} {f : Field} {t : NamedType} {a rest : Allowance}
    {children : List Child} (ht : s.returnType f = .ok t) (ho : t.opening a = .opens children rest) :
    s.below (.field f) = children := by
  obtain ⟨rfl, -⟩ := opening_opens ho
  rw [below, find?_of_returnType ht]
  rfl

end Schema

namespace Synthesis

variable {s : Schema} {config : Config}

theorem Visit.head_tree (v : Visit) (ts : List SelectionTree) : (v.tree ts).head = v.head := by
  obtain ⟨head, extent⟩ := v
  cases extent <;> rfl

theorem Visit.children_tree (v : Visit) {ts : List SelectionTree}
    (h : ts.length = v.extent.arity) : (v.tree ts).children = ts := by
  obtain ⟨head, extent⟩ := v
  cases extent with
  | leaf | truncated => exact (List.length_eq_zero_iff.mp h).symm
  | node n => rfl

/-- The tree of a visited field has a place for it and those of what the field opens to. -/
theorem placesOf_tree {st : State} {p : Pending} {o : Schema.Opening} (above : List Schema.Child)
    (ts : List SelectionTree) (h : s.openingOf p.child p.allowance = .ok o) :
    s.placesOf above p.child ((st.visitOf config p o).tree ts) =
      ⟨above, p.child, (st.visitOf config p o).tree ts⟩ ::
        s.placesAmong (p.child :: above) ((Pending.ofOpening o).map Pending.child) ts := by
  cases o with
  | leaf | truncated => exact congrArg (_ :: ·) (s.placesAmong_nil _ ts).symm
  | opens children rest =>
    obtain ⟨f, t, hchild, ht, ho⟩ := Schema.openingOf_opens h
    have hchildren : (Pending.ofOpening (.opens children rest)).map Pending.child = children := by
      simp [Pending.ofOpening, Function.comp_def]
    have hbelow : s.below p.child = children := by
      rw [hchild]
      exact Schema.below_of_opens ht ho
    rw [hchildren, ← hbelow]
    rfl

/-- The places of traversed trees: the first field, what is below it, what is behind it. -/
theorem placesAmong_tree {st : State} {p : Pending} {o : Schema.Opening}
    (above : List Schema.Child) (ps : List Pending) (ts us : List SelectionTree)
    (h : s.openingOf p.child p.allowance = .ok o) :
    s.placesAmong above ((p :: ps).map Pending.child) ((st.visitOf config p o).tree ts :: us) =
      ⟨above, p.child, (st.visitOf config p o).tree ts⟩ ::
        (s.placesAmong (p.child :: above) ((Pending.ofOpening o).map Pending.child) ts ++
          s.placesAmong above (ps.map Pending.child) us) := by
  rw [List.map_cons, Schema.placesAmong, placesOf_tree above ts h, List.cons_append]

/-- Every field of traversed trees has its place, in the same order. -/
theorem Traverses.heads_placesAmong {st st' : State} {ps : List Pending} {ts : List SelectionTree}
    (h : Traverses s config st ps st' ts) (above : List Schema.Child) :
    (s.placesAmong above (ps.map Pending.child) ts).map Schema.Place.head =
      SelectionTree.headsOf ts := by
  induction h generalizing above with
  | nil => rfl
  | @cons st stBelow st' p ps o ts us opens below behind ihBelow ihBehind =>
    have harity : ts.length = (st.visitOf config p o).extent.arity :=
      below.length_eq.trans (Extent.arity_ofOpening o).symm
    rw [placesAmong_tree above ps ts us opens, List.map_cons, List.map_append, ihBelow, ihBehind,
      SelectionTree.headsOf, SelectionTree.heads_eq, Visit.children_tree _ harity]
    rfl

/-- Every field of a traversed tree has its place. -/
theorem Traverses.heads_places {st st' : State} {f : Schema.Field} {a : Allowance} {isRoot : Bool}
    {t : SelectionTree} (h : Traverses s config st [⟨.field f, a, isRoot⟩] st' [t]) :
    (s.places f t).map Schema.Place.head = t.heads := by
  rw [Schema.places_eq]
  exact (h.heads_placesAmong []).trans (List.append_nil _)

end Synthesis

end QueryCraft
