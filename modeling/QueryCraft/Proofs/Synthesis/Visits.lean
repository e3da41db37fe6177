import QueryCraft.Synthesis.Arena

/-!
The visits of a walk over a schema, without its arena. The fields to visit come in a list, each with
what may still be expanded from there on, and the tree is assembled from the list of visits. The
loop over the arena is compared with this walk, which lowers a bound at every visit.
-/

namespace QueryCraft

/-- How far fields may still be expanded: by a number of levels, or by types, each at most once on
the way from the root. -/
inductive Allowance where
  | levels (n : Nat)
  | types (names : List String)
  deriving DecidableEq, Repr

namespace Allowance

def size : Allowance → Nat
  | .levels n => n
  | .types names => names.length

/-- What is left behind the expansion of a field of the given type; none if it may not be expanded.
-/
def spend? (type : String) : Allowance → Option Allowance
  | .levels 0 => none
  | .levels (n + 1) => some (.levels n)
  | .types names =>
    if names.contains type then some (.types (names.filter fun name => name != type)) else none

theorem size_spend? {a b : Allowance} {type : String} (h : a.spend? type = some b) :
    b.size < a.size := by
  cases a with
  | levels n =>
    cases n with
    | zero => simp [spend?] at h
    | succ n =>
      simp only [spend?, Option.some.injEq] at h
      subst h
      exact Nat.lt_succ_self n
  | types names =>
    simp only [spend?] at h
    split at h
    · next hmem =>
      simp only [Option.some.injEq] at h
      subst h
      exact List.length_filter_lt_length_iff_exists.2 ⟨type, List.contains_iff_mem.1 hmem, by simp⟩
    · simp at h

end Allowance

namespace Schema

/-- What is selected on a type: one of its fields, or on a union the name of the type. -/
inductive Child where
  | field (f : Field)
  | typename

def Child.name : Child → String
  | .field f => f.name
  | .typename => "__typename"

/-- The field that is selected, if it is one. -/
def Child.field? : Child → Option Field
  | .field f => some f
  | .typename => none

/-- The type that is expanded below. -/
def Child.type? : Child → Option String
  | .field f => some f.type.innermost
  | .typename => none

def NamedType.selectable (t : NamedType) : List Child :=
  match t.shape with
  | .object _ fields | .interface _ fields => fields.map .field
  | .union _ => [.typename]
  | _ => []

/-- What becomes of a field below which types may be expanded. -/
inductive Opening where
  | leaf
  | truncated
  | opens (children : List Child) (rest : Allowance)

def Opening.children : Opening → List Child
  | .leaf | .truncated => []
  | .opens children _ => children

/-- A field of a type that is not composite is a leaf. One of a composite type is truncated if the
allowance is spent or nothing can be selected. -/
def NamedType.opening (t : NamedType) (a : Allowance) : Opening :=
  if t.isComposite then
    match a.spend? t.name, t.selectable with
    | none, _ | _, [] => .truncated
    | some rest, children => .opens children rest
  else
    .leaf

/-- The most that can be selected on any type. -/
def width (s : Schema) : Nat :=
  (s.types.map fun t => t.selectable.length).foldr max 0

/-- Without a bound on the depth, each composite type but the query type may be expanded. -/
def allowance (s : Schema) : Option Nat → Allowance
  | some depth => .levels (max depth 1 - 1)
  | none =>
    .types (((s.types.filter NamedType.isComposite).map NamedType.name).filter
      fun name => s.query != some name)

theorem length_selectable_le_width {s : Schema} {t : NamedType} (h : t ∈ s.types) :
    t.selectable.length ≤ s.width := by
  unfold width
  generalize s.types = types at h
  induction types with
  | nil => simp at h
  | cons u us ih =>
    simp only [List.map_cons, List.foldr_cons]
    rcases List.mem_cons.1 h with rfl | h
    · omega
    · have := ih h
      omega

theorem mem_types_of_returnType {s : Schema} {f : Field} {t : NamedType}
    (h : s.returnType f = .ok t) : t ∈ s.types := by
  unfold returnType at h
  split at h
  · next hfind =>
    simp only [Except.ok.injEq] at h
    subst h
    exact List.mem_of_find?_eq_some hfind
  · simp at h

theorem opening_opens {t : NamedType} {a b : Allowance} {children : List Child}
    (h : t.opening a = .opens children b) :
    children = t.selectable ∧ b.size < a.size := by
  unfold NamedType.opening at h
  split at h
  · split at h
    · simp at h
    · simp at h
    · next hspend _ =>
      simp only [Opening.opens.injEq] at h
      obtain ⟨rfl, rfl⟩ := h
      exact ⟨rfl, Allowance.size_spend? hspend⟩
  · simp at h

end Schema

namespace Synthesis

/-- A field to visit. -/
structure Pending where
  child : Schema.Child
  allowance : Allowance
  isRoot : Bool

/-- What a visit found: a leaf, a truncated field, or one with some number of children. -/
inductive Extent where
  | leaf
  | truncated
  | node (arity : Nat)
  deriving DecidableEq, Repr

structure Visit where
  head : TreeHead
  extent : Extent

/-- The state of a walk; the last visit comes first. -/
structure State where
  names : VariableNames
  definitions : List VariableDefinition
  visits : List Visit

def State.initial : State :=
  ⟨.empty, [], []⟩

/-- Binds a parameter to a new variable of its type and default. -/
def State.bind (st : State) (p : Schema.Parameter) : Argument × State :=
  let (name, names) := st.names.allocate p.name
  (⟨p.name, .var name⟩,
    { st with names, definitions := st.definitions ++ [⟨name, p.type, p.default⟩] })

def State.bindAll (st : State) : List Schema.Parameter → List Argument × State
  | [] => ([], st)
  | p :: ps =>
    let (a, st) := st.bind p
    let (as, st) := st.bindAll ps
    (a :: as, st)

/-- The parameters of a field that are bound when it is visited. -/
def Config.boundParameters (config : Config) (isRoot : Bool) (f : Schema.Field) :
    List Schema.Parameter :=
  if isRoot || config.nestedArguments then f.parameters else []

def State.record (st : State) (head : TreeHead) (extent : Extent) : State :=
  { st with visits := ⟨head, extent⟩ :: st.visits }

/-- The extent of a field that opens in some way. -/
def Extent.ofOpening : Schema.Opening → Extent
  | .leaf => .leaf
  | .truncated => .truncated
  | .opens children _ => .node children.length

/-- The fields to visit below a field that opens in some way. -/
def Pending.ofOpening : Schema.Opening → List Pending
  | .leaf | .truncated => []
  | .opens children rest => children.map fun child => ⟨child, rest, false⟩

/-- Visits one field: binds its arguments and finds what is below it. -/
def visit (s : Schema) (config : Config) (st : State) (p : Pending) :
    Except Schema.LookupError (State × List Pending) :=
  match p.child with
  | .typename => .ok (st.record ⟨p.child.name, []⟩ .leaf, [])
  | .field f =>
    match s.returnType f with
    | .error e => .error e
    | .ok t =>
      let bound := st.bindAll (config.boundParameters p.isRoot f)
      let opening := t.opening p.allowance
      .ok (bound.2.record ⟨f.name, bound.1⟩ (.ofOpening opening), Pending.ofOpening opening)

/-- The most visits that a field with the given allowance can lead to. -/
def visitsWithin (s : Schema) (a : Allowance) : Nat :=
  Nat.pow (s.width + 1) (a.size + 1)

/-- The most visits that the fields to visit can lead to. -/
def bound (s : Schema) : List Pending → Nat
  | [] => 0
  | p :: ps => visitsWithin s p.allowance + bound s ps

theorem bound_append (s : Schema) (ps qs : List Pending) :
    bound s (ps ++ qs) = bound s ps + bound s qs := by
  induction ps with
  | nil => simp [bound]
  | cons p ps ih => simp only [List.cons_append, bound, ih, Nat.add_assoc]

theorem bound_children (s : Schema) (children : List Schema.Child) (a : Allowance) :
    bound s (children.map fun child => ⟨child, a, false⟩) =
      children.length * visitsWithin s a := by
  induction children with
  | nil => simp [bound]
  | cons c cs ih =>
    simp only [List.map_cons, bound, List.length_cons, ih, Nat.add_mul, Nat.one_mul, Nat.add_comm]

theorem visitsWithin_pos (s : Schema) (a : Allowance) : 0 < visitsWithin s a :=
  Nat.pow_pos (Nat.succ_pos s.width)

theorem bound_pos (s : Schema) (p : Pending) : 0 < bound s [p] := by
  simp [bound, visitsWithin_pos]

/-- With all of its children, a field leads to fewer visits than its allowance bounds. -/
theorem width_mul_visitsWithin_lt {s : Schema} {a b : Allowance} (h : b.size < a.size) :
    s.width * visitsWithin s b < visitsWithin s a := by
  have hpow : visitsWithin s b * (s.width + 1) ≤ visitsWithin s a := by
    simp only [visitsWithin, Nat.pow_eq, ← Nat.pow_succ]
    exact Nat.pow_le_pow_right (Nat.succ_pos s.width) (Nat.succ_le_succ h)
  refine Nat.lt_of_lt_of_le ?_ hpow
  rw [Nat.mul_comm]
  exact Nat.mul_lt_mul_of_pos_left (Nat.lt_succ_self s.width) (visitsWithin_pos s b)

/-- The fields below a visited one lead to fewer visits than the field itself. -/
theorem bound_lt_of_visit {s : Schema} {config : Config} {st st' : State} {p : Pending}
    {below : List Pending} (h : visit s config st p = .ok (st', below)) :
    bound s below < bound s [p] := by
  unfold visit at h
  split at h
  · simp only [Except.ok.injEq, Prod.mk.injEq] at h
    obtain ⟨_, rfl⟩ := h
    exact bound_pos s p
  · split at h
    · simp at h
    · next t ht =>
      simp only [Except.ok.injEq, Prod.mk.injEq] at h
      obtain ⟨_, rfl⟩ := h
      cases ho : t.opening p.allowance with
      | leaf => exact bound_pos s p
      | truncated => exact bound_pos s p
      | opens children rest =>
        obtain ⟨rfl, hsize⟩ := Schema.opening_opens ho
        have hwidth := Schema.length_selectable_le_width (Schema.mem_types_of_returnType ht)
        simp only [Pending.ofOpening, bound_children, bound, Nat.add_zero]
        exact Nat.lt_of_le_of_lt (Nat.mul_le_mul_right _ hwidth) (width_mul_visitsWithin_lt hsize)

/-- Visits the fields in order, each followed by what is below it. -/
def walk (s : Schema) (config : Config) (st : State) (pending : List Pending) :
    Except Schema.LookupError State :=
  match pending with
  | [] => .ok st
  | p :: rest =>
    match h : visit s config st p with
    | .error e => .error e
    | .ok (st, below) =>
      have := bound_lt_of_visit h
      walk s config st (below ++ rest)
termination_by bound s pending
decreasing_by
  have hcons := bound_append s [p] rest
  simp only [List.cons_append, List.nil_append] at hcons
  rw [bound_append, hcons]
  omega

/-- Puts a visited field over the trees of its children, which are the first ones. -/
def Visit.push (trees : List SelectionTree) (v : Visit) : List SelectionTree :=
  match v.extent with
  | .leaf => .leaf v.head :: trees
  | .truncated => .truncated v.head :: trees
  | .node arity => .node v.head (trees.take arity) :: trees.drop arity

/-- The trees that visits describe, from the last visit back to the first. -/
def assembleVisits (visits : List Visit) : List SelectionTree :=
  visits.foldl Visit.push []

end Synthesis

namespace Schema

variable {s : Schema} {maxDepth : Option Nat} {depth : Nat} {expanded : List String} {type : String}

/-- Whether a composite type is not expanded: at the greatest depth, or without a bound on the depth
if it was expanded above or is where queries start. -/
def cuts (s : Schema) (maxDepth : Option Nat) (depth : Nat) (expanded : List String)
    (type : String) : Bool :=
  match maxDepth with
  | some n => decide (max n 1 ≤ depth)
  | none => expanded.contains type || s.query == some type

/-- The allowance that is left at a depth and below some expanded types. -/
def allowanceAt (s : Schema) (maxDepth : Option Nat) (depth : Nat) (expanded : List String) :
    Allowance :=
  match maxDepth with
  | some n => .levels (max n 1 - depth)
  | none =>
    .types (((s.types.filter NamedType.isComposite).map NamedType.name).filter
      fun name => s.query != some name && !expanded.contains name)

theorem allowance_eq (s : Schema) (maxDepth : Option Nat) :
    s.allowance maxDepth = s.allowanceAt maxDepth 1 [] := by
  cases maxDepth with
  | some n => rfl
  | none => simp [allowance, allowanceAt]

/-- A composite type takes from the allowance unless it is to be cut. -/
theorem spend?_allowanceAt {t : NamedType} (hfind : s.find? type = some t)
    (hcomposite : t.isComposite = true) :
    (s.allowanceAt maxDepth depth expanded).spend? type =
      if s.cuts maxDepth depth expanded type then none
      else some (s.allowanceAt maxDepth (depth + 1) (type :: expanded)) := by
  cases maxDepth with
  | some n =>
    simp only [allowanceAt, cuts, decide_eq_true_eq]
    split
    · next hcut =>
      rw [Nat.sub_eq_zero_of_le hcut, Allowance.spend?]
    · next hcut =>
      obtain ⟨k, hk⟩ : ∃ k, max n 1 - depth = k + 1 := ⟨max n 1 - depth - 1, by omega⟩
      have hrest : max n 1 - (depth + 1) = k := by omega
      rw [hk, hrest, Allowance.spend?]
  | none =>
    have hname : t.name = type := by simpa using List.find?_some hfind
    have hmem : type ∈ (s.types.filter NamedType.isComposite).map NamedType.name :=
      List.mem_map.mpr ⟨t, List.mem_filter.mpr ⟨List.mem_of_find?_eq_some hfind, hcomposite⟩, hname⟩
    have hcontains : (((s.types.filter NamedType.isComposite).map NamedType.name).filter
        fun name => s.query != some name && !expanded.contains name).contains type =
        !s.cuts none depth expanded type := by
      rw [Bool.eq_iff_iff, List.contains_iff_mem, List.mem_filter]
      simp only [hmem, true_and, cuts, Bool.not_or, bne, Bool.and_comm]
    -- Without a bound on the depth, the names left are those neither expanded nor queried from.
    simp only [allowanceAt, Allowance.spend?, hcontains, List.filter_filter]
    cases s.cuts none depth expanded type with
    | true => rfl
    | false =>
      simp only [Bool.not_false, if_true, Bool.false_eq_true, if_false, List.contains_cons,
        Bool.not_or, bne]
      congr 3
      funext name
      exact Bool.and_left_comm _ _ _

theorem find?_of_returnType {s : Schema} {f : Field} {t : NamedType}
    (h : s.returnType f = .ok t) : s.find? f.type.innermost = some t := by
  unfold returnType at h
  split at h
  · next hfind =>
    obtain rfl := Except.ok.inj h
    exact hfind
  · contradiction

/-- A field of a composite type opens to all that can be selected on it, unless it is to be cut or
there is nothing to select. -/
theorem opening_of_isComposite {t : NamedType} (hfind : s.find? type = some t)
    (hcomposite : t.isComposite = true) :
    t.opening (s.allowanceAt maxDepth depth expanded) =
      if s.cuts maxDepth depth expanded type || t.selectable.isEmpty then .truncated
      else .opens t.selectable (s.allowanceAt maxDepth (depth + 1) (type :: expanded)) := by
  have hname : t.name = type := by simpa using List.find?_some hfind
  rw [NamedType.opening, if_pos hcomposite, hname, spend?_allowanceAt hfind hcomposite]
  cases s.cuts maxDepth depth expanded type with
  | true => rfl
  | false =>
    cases hselectable : t.selectable with
    | nil => rfl
    | cons c cs => rfl

theorem spend?_of_opens {t : NamedType} {a rest : Allowance} {children : List Child}
    (h : t.opening a = .opens children rest) :
    t.isComposite = true ∧ a.spend? t.name = some rest := by
  unfold NamedType.opening at h
  split at h
  · next hcomposite =>
    split at h
    · contradiction
    · contradiction
    · next hspend _ =>
      obtain ⟨-, rfl⟩ := Opening.opens.inj h
      exact ⟨hcomposite, hspend⟩
  · contradiction

/-- A field that opens was not to be cut. What is left below it is what is left one level deeper and
below its type. -/
theorem rest_of_opens {t : NamedType} {children : List Child} {rest : Allowance}
    (hfind : s.find? type = some t)
    (h : t.opening (s.allowanceAt maxDepth depth expanded) = .opens children rest) :
    s.cuts maxDepth depth expanded type = false ∧
      rest = s.allowanceAt maxDepth (depth + 1) (type :: expanded) := by
  have hname : t.name = type := by simpa using List.find?_some hfind
  obtain ⟨hcomposite, hspend⟩ := spend?_of_opens h
  rw [hname, spend?_allowanceAt hfind hcomposite] at hspend
  split at hspend
  · contradiction
  · next hcut => exact ⟨by simpa using hcut, (Option.some.inj hspend).symm⟩

/-- None of the types comes twice, and none is where queries start. -/
def Fresh (s : Schema) (types : List String) : Prop :=
  types.Nodup ∧ ∀ type ∈ types, s.query ≠ some type

/-- Without a bound on the depth, a type that is not cut is new on the way to it. -/
theorem Fresh.cons (h : s.Fresh expanded) (hcut : s.cuts none depth expanded type = false) :
    s.Fresh (type :: expanded) := by
  simp only [cuts, Bool.or_eq_false_iff, beq_eq_false_iff_ne] at hcut
  obtain ⟨hnew, hquery⟩ := hcut
  have hmem : type ∉ expanded := by simpa using hnew
  exact ⟨List.nodup_cons.mpr ⟨hmem, h.1⟩, List.forall_mem_cons.mpr ⟨hquery, h.2⟩⟩

def Child.parameters : Child → List Parameter
  | .field f => f.parameters
  | .typename => []

/-- What becomes of what is selected on a type; the name of a type is a leaf. -/
def openingOf (s : Schema) (c : Child) (a : Allowance) : Except LookupError Opening :=
  match c with
  | .field f => (s.returnType f).map fun t => t.opening a
  | .typename => .ok .leaf

/-- Only a field of a defined type is opened. -/
theorem openingOf_opens {c : Child} {a rest : Allowance} {children : List Child}
    (h : s.openingOf c a = .ok (.opens children rest)) :
    ∃ f t, c = .field f ∧ s.returnType f = .ok t ∧ t.opening a = .opens children rest := by
  cases c with
  | typename => simp [openingOf] at h
  | field f =>
    rw [openingOf] at h
    cases ht : s.returnType f with
    | error e =>
      rw [ht] at h
      contradiction
    | ok t =>
      rw [ht] at h
      exact ⟨f, t, rfl, ht, Except.ok.inj h⟩

end Schema

namespace Synthesis

variable {s : Schema} {config : Config}

theorem visits_bindAll (st : State) (ps : List Schema.Parameter) :
    (st.bindAll ps).2.visits = st.visits := by
  induction ps generalizing st with
  | nil => rfl
  | cons p ps ih => exact ih _

/-- The parameters that are bound when a field is visited. -/
def Pending.parameters (config : Config) (p : Pending) : List Schema.Parameter :=
  if p.isRoot || config.nestedArguments then p.child.parameters else []

/-- What is recorded of a field that opens in some way. -/
def State.visitOf (st : State) (config : Config) (p : Pending) (o : Schema.Opening) : Visit :=
  ⟨⟨p.child.name, (st.bindAll (p.parameters config)).1⟩, .ofOpening o⟩

def State.visited (st : State) (config : Config) (p : Pending) (o : Schema.Opening) : State :=
  (st.bindAll (p.parameters config)).2.record (st.visitOf config p o).head
    (st.visitOf config p o).extent

theorem visits_visited (st : State) (config : Config) (p : Pending) (o : Schema.Opening) :
    (st.visited config p o).visits = st.visitOf config p o :: st.visits :=
  congrArg (_ :: ·) (visits_bindAll st _)

/-- A visit binds the parameters of a field and goes on with what the field opens to; it fails only
if the type of the field is not defined. -/
theorem visit_eq (st : State) (p : Pending) :
    visit s config st p = (s.openingOf p.child p.allowance).map fun o =>
      (st.visited config p o, Pending.ofOpening o) := by
  obtain ⟨child, a, isRoot⟩ := p
  cases child with
  | typename =>
    have hnone : Pending.parameters config ⟨.typename, a, isRoot⟩ = [] := ite_self []
    simp only [visit, State.visited, State.visitOf, hnone]
    rfl
  | field f =>
    simp only [visit, Schema.openingOf]
    cases s.returnType f <;> rfl

theorem visit_ok {st st' : State} {p : Pending} {below : List Pending}
    (h : visit s config st p = .ok (st', below)) :
    ∃ o, s.openingOf p.child p.allowance = .ok o ∧ st' = st.visited config p o ∧
      below = Pending.ofOpening o := by
  rw [visit_eq] at h
  cases ho : s.openingOf p.child p.allowance with
  | error e =>
    rw [ho] at h
    contradiction
  | ok o =>
    rw [ho] at h
    obtain ⟨rfl, rfl⟩ := Prod.mk.inj (Except.ok.inj h)
    exact ⟨o, rfl, rfl, rfl⟩

theorem openingOf_of_visit {st : State} {p : Pending} {cause : Schema.LookupError}
    (h : visit s config st p = .error cause) : s.openingOf p.child p.allowance = .error cause := by
  rw [visit_eq] at h
  cases ho : s.openingOf p.child p.allowance with
  | error cause' =>
    rw [ho] at h
    exact congrArg Except.error (Except.error.inj h)
  | ok o =>
    rw [ho] at h
    contradiction

theorem walk_nil (st : State) : walk s config st [] = .ok st := by
  rw [walk]

theorem walk_cons (st : State) (p : Pending) (rest : List Pending) :
    walk s config st (p :: rest) =
      match visit s config st p with
      | .error e => .error e
      | .ok (st', below) => walk s config st' (below ++ rest) := by
  rw [walk]
  split <;> simp_all

end Synthesis

end QueryCraft
