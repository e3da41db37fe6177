import QueryCraft.Proofs.Synthesis.Arena
import QueryCraft.Proofs.Synthesis.Visits

/-!
One turn of the loop over the arena. It does with the node of an entry what a visit of the walk does
with a field: what may be expanded from there on is told by the depth of the entry and by the types
on the way up from its node.
-/

namespace QueryCraft

namespace Synthesis

variable {s : Schema} {config : Config} {w : SchemaWalk} {e : Entry} {st : State} {p : Pending}
  {arena : Array Node} {index i : Nat} {node : Node}

theorem modify_eq_set (h : arena[index]? = some node) (change : Node → Node) :
    arena.modify index change = arena.setIfInBounds index (change node) := by
  have hlt : index < arena.size := (Array.getElem?_eq_some_iff.mp h).1
  apply Array.ext_getElem?
  intro i
  rw [Array.getElem?_modify, Array.getElem?_setIfInBounds]
  split
  · next heq =>
    subst heq
    rw [h, Option.map_some]
  · rfl

theorem set_self (h : arena[index]? = some node) : arena.setIfInBounds index node = arena := by
  have hlt : index < arena.size := (Array.getElem?_eq_some_iff.mp h).1
  apply Array.ext_getElem?
  intro i
  rw [Array.getElem?_setIfInBounds]
  split
  · next heq =>
    subst heq
    exact h.symm
  · rfl

/-- An arena with another node at an index and more nodes behind all others. -/
def grow (arena : Array Node) (index : Nat) (node : Node) (below : List Node) : Array Node :=
  arena.setIfInBounds index node ++ below.toArray

section Grow

variable {below : List Node}

theorem size_grow : (grow arena index node below).size = arena.size + below.length := by
  simp [grow]

theorem grow_self (h : index < arena.size) : (grow arena index node below)[index]? = some node := by
  rw [grow, Array.getElem?_append_left (by simpa using h),
    Array.getElem?_setIfInBounds_self_of_lt h]

theorem grow_other (h : i < arena.size) (hne : i ≠ index) :
    (grow arena index node below)[i]? = arena[i]? := by
  rw [grow, Array.getElem?_append_left (by simpa using h),
    Array.getElem?_setIfInBounds_ne (Ne.symm hne)]

theorem grow_below (h : arena.size ≤ i) :
    (grow arena index node below)[i]? = below[i - arena.size]? := by
  rw [grow, Array.getElem?_append_right (by simpa using h)]
  simp

theorem grow_append : grow arena index node [] ++ below.toArray = grow arena index node below := by
  simp [grow]

theorem modify_grow (h : index < arena.size) (change : Node → Node) :
    (grow arena index node below).modify index change =
      grow arena index (change node) below := by
  apply Array.ext_getElem?
  intro i
  rw [Array.getElem?_modify]
  split
  · next heq =>
    subst heq
    rw [grow_self h, grow_self h, Option.map_some]
  · next hne =>
    by_cases hlt : i < arena.size
    · rw [grow_other hlt (Ne.symm hne), grow_other hlt (Ne.symm hne)]
    · rw [grow_below (Nat.not_lt.mp hlt), grow_below (Nat.not_lt.mp hlt)]

end Grow

/-- A walk and a state have given out the same variables. -/
def SchemaWalk.SameVariables (w : SchemaWalk) (st : State) : Prop :=
  w.names = st.names ∧ w.definitions = st.definitions

theorem pushAll_eq (w : SchemaWalk) (nodes : List Node) :
    w.pushAll nodes =
      (List.range' w.arena.size nodes.length, { w with arena := w.arena ++ nodes.toArray }) := by
  induction nodes generalizing w with
  | nil => simp [SchemaWalk.pushAll]
  | cons node nodes ih =>
    simp only [SchemaWalk.pushAll, SchemaWalk.push, ih, Array.size_push, List.length_cons,
      List.range'_succ]
    simp

theorem bindArguments_eq (h : w.SameVariables st) (hnode : w.arena[index]? = some node)
    (f : Schema.Field) :
    w.bindArguments index f = ⟨(st.bindAll f.parameters).2.names,
      (st.bindAll f.parameters).2.definitions, w.arena.setIfInBounds index
        { node with arguments := node.arguments ++ (st.bindAll f.parameters).1 }⟩ := by
  rw [SchemaWalk.bindArguments]
  generalize f.parameters = ps
  induction ps generalizing w st node with
  | nil =>
    simp only [List.foldl_nil, State.bindAll, List.append_nil, set_self hnode, ← h.1, ← h.2]
  | cons p ps ih =>
    have hlt : index < w.arena.size := (Array.getElem?_eq_some_iff.mp hnode).1
    have hfirst : w.bind index p = ⟨(st.bind p).2.names, (st.bind p).2.definitions,
        w.arena.setIfInBounds index
          { node with arguments := node.arguments ++ [(st.bind p).1] }⟩ := by
      simp only [SchemaWalk.bind, SchemaWalk.update, modify_eq_set hnode, State.bind, h.1, h.2]
    have hnext : (w.bind index p).SameVariables (st.bind p).2 := by
      rw [hfirst]
      exact ⟨rfl, rfl⟩
    have hchanged : (w.bind index p).arena[index]? =
        some { node with arguments := node.arguments ++ [(st.bind p).1] } := by
      rw [hfirst]
      exact Array.getElem?_setIfInBounds_self_of_lt hlt
    rw [List.foldl_cons, ih hnext hchanged, hfirst]
    simp only [Array.setIfInBounds_setIfInBounds, State.bindAll, List.append_assoc,
      List.singleton_append]

theorem find?_name {t : Schema.NamedType} {type : String} (h : s.find? type = some t) :
    t.name = type := by
  simpa using List.find?_some h

/-- On a composite type something can be selected, and its fields can be looked up. -/
theorem nodesBelow_eq {t : Schema.NamedType} {type : String} (hfind : s.find? type = some t)
    (hcomposite : t.isComposite = true) (index : Nat) :
    nodesBelow s index t = .ok (t.selectable.map fun c => .new c.field? (some index)) := by
  have hself : s.find? t.name = some t := by rw [find?_name hfind, hfind]
  obtain ⟨name, description, shape⟩ := t
  cases shape with
  | union members => rfl
  | object interfaces fields | interface interfaces fields =>
    simp [nodesBelow, Schema.fieldsOf, Schema.typeOf, hself, Schema.NamedType.fields?,
      Schema.NamedType.selectable, Schema.Child.field?, Function.comp_def]
    rfl
  | builtin | scalar | enum | input => contradiction

/-- The node of a field that opens in some way, with the index of the first node below it. -/
def Node.opened (c : Schema.Child) (parent : Option Nat) (arguments : List Argument) (first : Nat) :
    Schema.Opening → Node
  | .leaf => ⟨c.field?, parent, arguments, [], none, false⟩
  | .truncated => ⟨c.field?, parent, arguments, [], none, true⟩
  | .opens children _ =>
    ⟨c.field?, parent, arguments, List.range' first children.length, c.type?, false⟩

/-- The walk after a turn. -/
def SchemaWalk.visited (w : SchemaWalk) (config : Config) (st : State) (p : Pending)
    (parent : Option Nat) (index : Nat) (o : Schema.Opening) : SchemaWalk :=
  let bound := st.bindAll (p.parameters config)
  ⟨bound.2.names, bound.2.definitions,
    grow w.arena index (.opened p.child parent bound.1 w.arena.size o)
      (o.children.map fun c => .new c.field? (some index))⟩

/-- The other nodes are not changed by a turn. -/
theorem SchemaWalk.visited_other {parent : Option Nat} (hi : w.arena[i]? = some node)
    (hne : i ≠ index) (o : Schema.Opening) :
    (w.visited config st p parent index o).arena[i]? = some node :=
  (grow_other (Array.getElem?_eq_some_iff.mp hi).1 hne).trans hi

theorem size_le_visited (w : SchemaWalk) (config : Config) (st : State) (p : Pending)
    (parent : Option Nat) (index : Nat) (o : Schema.Opening) :
    w.arena.size ≤ (w.visited config st p parent index o).arena.size := by
  rw [SchemaWalk.visited, size_grow]
  exact Nat.le_add_right _ _

/-- An entry of the stack stands for a field to visit. Its node is as it was made, its depth tells
how many types are expanded on the way up, and the same may still be expanded from there on. Without
a bound on the depth the types on the way up are different. -/
structure Entry.Awaits (s : Schema) (config : Config) (arena : Array Node) (e : Entry) (p : Pending)
    (parent : Option Nat) (types : List String) : Prop where
  found : arena[e.index]? = some (.new p.child.field? parent)
  before : parent.all (· < e.index) = true
  chain : Chain arena parent types
  depth : e.depth = types.length + 1
  fresh : config.maxDepth = none → s.Fresh types
  allowance : p.allowance = s.allowanceAt config.maxDepth e.depth types
  isRoot : p.isRoot = (e.index == 0)

namespace Entry.Awaits

variable {parent : Option Nat} {types : List String}

theorem lt_size (h : e.Awaits s config arena p parent types) : e.index < arena.size :=
  (Array.getElem?_eq_some_iff.mp h.found).1

/-- The arguments of the node are bound as the walk binds those of the field. -/
theorem bound_eq (h : e.Awaits s config w.arena p parent types) (hsame : w.SameVariables st)
    {f : Schema.Field} (hf : p.child = .field f) :
    (if e.index == 0 || config.nestedArguments then w.bindArguments e.index f else w) =
      w.visited config st p parent e.index .leaf := by
  have hfound := h.found
  rw [SchemaWalk.visited, Pending.parameters, h.isRoot, hf]
  rw [hf] at hfound
  split
  · rw [bindArguments_eq hsame hfound]
    simp [Schema.Child.parameters, grow, Node.opened, Node.new, Schema.Opening.children]
  · have hself : w.arena.setIfInBounds e.index (.new (some f) parent) = w.arena := set_self hfound
    simp only [Node.new] at hself
    simp [State.bindAll, Node.opened, Schema.Opening.children, grow, Schema.Child.field?, hself,
      ← hsame.1, ← hsame.2]

theorem truncate_eq (h : e.Awaits s config w.arena p parent types) :
    (w.visited config st p parent e.index .leaf).truncate e.index =
      w.visited config st p parent e.index .truncated := by
  simp only [SchemaWalk.visited, SchemaWalk.truncate, SchemaWalk.update]
  rw [Schema.Opening.children, List.map_nil, modify_grow h.lt_size]
  rfl

/-- Expansion adds a node for all that can be selected on the type of the field. -/
theorem expand_eq (h : e.Awaits s config w.arena p parent types) {f : Schema.Field}
    {t : Schema.NamedType} (hf : p.child = .field f) (hfind : s.find? f.type.innermost = some t)
    (hcomposite : t.isComposite = true) (rest : Allowance) :
    (w.visited config st p parent e.index .leaf).expand s e.index t =
      .ok (if t.selectable.isEmpty then ([], w.visited config st p parent e.index .truncated)
        else (List.range' w.arena.size t.selectable.length,
          w.visited config st p parent e.index (.opens t.selectable rest))) := by
  have hsize : (w.visited config st p parent e.index .leaf).arena.size = w.arena.size := size_grow
  rw [SchemaWalk.expand, nodesBelow_eq hfind hcomposite]
  simp only [Except.map, pushAll_eq, hsize, List.length_map]
  cases hselectable : t.selectable with
  | nil => simp [h.truncate_eq]
  | cons c cs =>
    simp only [SchemaWalk.update, SchemaWalk.visited, Schema.Opening.children, List.map_nil,
      grow_append, modify_grow h.lt_size]
    simp [Node.opened, find?_name hfind, hf, Schema.Child.type?, List.range'_succ]

/-- The node is not on the way up from any, since it is not expanded. -/
theorem chain_visited (h : e.Awaits s config w.arena p parent types) {index : Option Nat}
    {above : List String} (hchain : Chain w.arena index above) (o : Schema.Opening) :
    Chain (w.visited config st p parent e.index o).arena index above := by
  refine hchain.congr fun i node hi hexpanded => SchemaWalk.visited_other hi ?_ o
  rintro rfl
  obtain rfl := Option.some.inj (h.found.symm.trans hi)
  exact hexpanded rfl

theorem shouldTruncate_eq (h : e.Awaits s config w.arena p parent types) (type : String) :
    shouldTruncate s config (w.visited config st p parent e.index .leaf).arena e type =
      some (s.cuts config.maxDepth e.depth types type) := by
  have hchain : Chain (w.visited config st p parent e.index .leaf).arena parent types :=
    h.chain_visited h.chain .leaf
  have hnode : (w.visited config st p parent e.index .leaf).arena[e.index]? = some _ :=
    grow_self h.lt_size
  unfold shouldTruncate Schema.cuts
  cases config.maxDepth with
  | some n => rfl
  | none =>
    simp only [hnode, Node.opened, hchain.isExpandedAbove type, Option.map_some]

/-- What a turn of the loop does with the node of an entry. -/
theorem turn_eq (h : e.Awaits s config w.arena p parent types) (hsame : w.SameVariables st) :
    turn s config w e = some ((s.openingOf p.child p.allowance).map fun o =>
      (List.range' w.arena.size o.children.length, w.visited config st p parent e.index o)) := by
  rw [turn, h.found]
  cases hchild : p.child with
  | typename =>
    have hfound := h.found
    rw [hchild] at hfound
    have hself : w.arena.setIfInBounds e.index (.new none parent) = w.arena := set_self hfound
    simp only [Node.new] at hself
    simp [Schema.openingOf, Except.map, Schema.Opening.children, SchemaWalk.visited,
      Pending.parameters, hchild, Schema.Child.parameters, State.bindAll, grow, Node.opened,
      Schema.Child.field?, hself, Node.new, ← hsame.1, ← hsame.2]
  | field f =>
    have hbound := h.bound_eq hsame hchild
    simp only [Node.new, Schema.Child.field?, hbound, Schema.openingOf]
    cases hreturn : s.returnType f with
    | error cause => rfl
    | ok t =>
      have hfind : s.find? f.type.innermost = some t := Schema.find?_of_returnType hreturn
      cases hcomposite : t.isComposite with
      | false =>
        simp [Except.map, Schema.NamedType.opening, hcomposite, Schema.Opening.children]
      | true =>
        simp only [hcomposite, if_true, find?_name hfind, h.shouldTruncate_eq, h.allowance,
          Except.map, Schema.opening_of_isComposite hfind hcomposite, Option.map_some]
        cases s.cuts config.maxDepth e.depth types f.type.innermost with
        | true => simp [h.truncate_eq, Schema.Opening.children]
        | false =>
          simp only [Bool.false_eq_true, if_false, Bool.false_or]
          rw [h.expand_eq hchild hfind hcomposite
            (s.allowanceAt config.maxDepth (e.depth + 1) (f.type.innermost :: types))]
          split <;> simp [Schema.Opening.children]

end Entry.Awaits

end Synthesis

end QueryCraft
