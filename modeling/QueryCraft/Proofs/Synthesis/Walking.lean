import QueryCraft.Proofs.Synthesis.Building
import QueryCraft.Proofs.Synthesis.Recursion

/-!
The walk over a schema and the assembly of its visits amount to the direct recursion. A walk takes
the fields to visit from the front, so what it does with one field and everything below it is over
before it comes to the next.
-/

namespace QueryCraft

namespace Schema

variable {s : Schema} {maxDepth : Option Nat} {depth : Nat} {expanded : List String} {type : String}

/-- How a field opens that grows in some way and leaves some allowance. -/
def Growth.opening (rest : Allowance) : Growth → Opening
  | .undefined | .leaf => .leaf
  | .truncated => .truncated
  | .typename => .opens [.typename] rest
  | .fields gs => .opens (gs.map .field) rest

/-- What a walk finds below a field is what the recursion does with it. -/
theorem opening_allowanceAt {f : Field} {t : NamedType}
    (hfind : s.find? f.type.innermost = some t) :
    t.opening (s.allowanceAt maxDepth depth expanded) =
      (s.growth maxDepth depth expanded f).opening
        (s.allowanceAt maxDepth (depth + 1) (f.type.innermost :: expanded)) := by
  have hname : t.name = f.type.innermost := by simpa using List.find?_some hfind
  unfold NamedType.opening growth
  simp only [hfind]
  cases hcomposite : t.isComposite with
  | false => rfl
  | true =>
    rw [if_pos rfl, hname, spend?_allowanceAt hfind hcomposite]
    simp only [Bool.not_true, Bool.false_eq_true, if_false]
    cases s.cuts maxDepth depth expanded f.type.innermost with
    | true => rfl
    | false =>
      simp only [Bool.false_eq_true, if_false]
      unfold NamedType.isComposite at hcomposite
      unfold NamedType.selectable NamedType.fields?
      split at hcomposite
      · next fields hshape => cases fields <;> simp [hshape, Growth.opening]
      · next fields hshape => cases fields <;> simp [hshape, Growth.opening]
      · next hshape => simp [hshape, Growth.opening]
      · contradiction

theorem find?_of_growth {f : Field} (h : s.growth maxDepth depth expanded f ≠ .undefined) :
    ∃ t, s.find? f.type.innermost = some t := by
  cases hfind : s.find? f.type.innermost with
  | none => simp [growth, hfind] at h
  | some t => exact ⟨t, rfl⟩

end Schema

namespace Synthesis

variable {s : Schema} {config : Config}

/-- A walk grows trees from some fields if it either fails with the error, or visits the fields and
all that is below them and records visits from which just these trees are assembled. -/
def Grows (s : Schema) (config : Config) (ps : List Pending) :
    Except Schema.LookupError (List SelectionTree) → Prop
  | .error e => ∀ st rest, walk s config st (ps ++ rest) = .error e
  | .ok ts => ∀ st rest, ∃ st' visits, walk s config st (ps ++ rest) = walk s config st' rest ∧
      st'.visits = visits ++ st.visits ∧ ∀ trees, ∃ grown, grown.length = ps.length ∧
        grown.map SelectionTree.bare = ts ∧ visits.foldl Visit.push trees = grown ++ trees

theorem Grows.nil : Grows s config [] (.ok []) :=
  fun st _ => ⟨st, [], rfl, rfl, fun _ => ⟨[], rfl, rfl, rfl⟩⟩

theorem Grows.cons {p : Pending} {ps : List Pending} {one : Except Schema.LookupError SelectionTree}
    {more : Except Schema.LookupError (List SelectionTree)}
    (hone : Grows s config [p] (one.map fun t => [t])) (hmore : Grows s config ps more) :
    Grows s config (p :: ps) (do
      let t ← one
      let ts ← more
      pure (t :: ts)) := by
  cases one with
  | error e => exact fun st rest => hone st (ps ++ rest)
  | ok t =>
    cases more with
    | error e =>
      intro st rest
      obtain ⟨st', -, hwalk, -⟩ := hone st (ps ++ rest)
      exact hwalk.trans (hmore st' rest)
    | ok ts =>
      intro st rest
      obtain ⟨st', visits, hwalk, hvisits, hgrown⟩ := hone st (ps ++ rest)
      obtain ⟨st'', visits', hwalk', hvisits', hgrown'⟩ := hmore st' rest
      refine ⟨st'', visits' ++ visits, hwalk.trans hwalk', ?_, fun trees => ?_⟩
      · rw [hvisits', hvisits, List.append_assoc]
      · obtain ⟨grown', hlength', hbare', hfold'⟩ := hgrown' trees
        obtain ⟨grown, hlength, hbare, hfold⟩ := hgrown (grown' ++ trees)
        refine ⟨grown ++ grown', ?_, ?_, ?_⟩
        · simp only [List.length_append, hlength, hlength', List.length_cons, List.length_nil]
          omega
        · rw [List.map_append, hbare, hbare']
          rfl
        · rw [List.foldl_append, hfold', hfold, List.append_assoc]

theorem Grows.mapM {α : Type} {pending : α → Pending}
    {k : α → Except Schema.LookupError SelectionTree} {as : List α}
    (h : ∀ a ∈ as, Grows s config [pending a] ((k a).map fun t => [t])) :
    Grows s config (as.map pending) (as.mapM k) := by
  induction as with
  | nil => exact .nil
  | cons a as ih =>
    rw [List.mapM_cons]
    exact (h a (by simp)).cons (ih fun b hb => h b (by simp [hb]))

/-- A field of a type that is not defined grows no tree. -/
theorem Grows.error {p : Pending} {e : Schema.LookupError}
    (h : s.openingOf p.child p.allowance = .error e) : Grows s config [p] (.error e) := by
  intro st rest
  rw [List.singleton_append, walk_cons, visit_eq, h]
  rfl

/-- The tree of a field of the given extent over some trees. -/
def Extent.tree (extent : Extent) (name : String) (ts : List SelectionTree) : SelectionTree :=
  match extent with
  | .leaf => .leaf ⟨name, []⟩
  | .truncated => .truncated ⟨name, []⟩
  | .node _ => .node ⟨name, []⟩ ts

theorem Visit.bare_tree (v : Visit) (ts : List SelectionTree) :
    (v.tree ts).bare = v.extent.tree v.head.name (ts.map SelectionTree.bare) := by
  obtain ⟨head, extent⟩ := v
  cases extent with
  | leaf | truncated => rfl
  | node n => simp [tree, Extent.tree, SelectionTree.bare, SelectionTree.bareAll_eq_map]

/-- A field grows its tree over the trees that are grown below it. -/
theorem Grows.visit {p : Pending} {o : Schema.Opening}
    {r : Except Schema.LookupError (List SelectionTree)}
    (hopens : s.openingOf p.child p.allowance = .ok o)
    (hbelow : Grows s config (Pending.ofOpening o) r) :
    Grows s config [p] (r.map fun ts => [(Extent.ofOpening o).tree p.child.name ts]) := by
  have hstep (st : State) (rest : List Pending) : walk s config st ([p] ++ rest) =
      walk s config (st.visited config p o) (Pending.ofOpening o ++ rest) := by
    rw [List.singleton_append, walk_cons, visit_eq, hopens]
    rfl
  cases r with
  | error e => exact fun st rest => (hstep st rest).trans (hbelow _ rest)
  | ok ts =>
    intro st rest
    obtain ⟨st', visits, hwalk, hvisits, hgrown⟩ := hbelow (st.visited config p o) rest
    -- The field is recorded before all below it, so when assembly comes to it,
    -- their trees are there.
    refine ⟨st', visits ++ [st.visitOf config p o], (hstep st rest).trans hwalk, ?_, fun trees => ?_⟩
    · rw [hvisits, visits_visited, List.append_assoc]
      rfl
    · obtain ⟨grown, hlength, rfl, hfold⟩ := hgrown trees
      refine ⟨[(st.visitOf config p o).tree grown], rfl, ?_, ?_⟩
      · rw [List.map_singleton, Visit.bare_tree]
        rfl
      · rw [List.foldl_append, hfold]
        exact Visit.push_append _ trees (hlength.trans (Extent.arity_ofOpening o).symm)

/-- A field grows its tree over what its type opens to. -/
theorem Grows.field {depth : Nat} {expanded : List String} {f : Schema.Field} {isRoot : Bool}
    {growth : Schema.Growth} {opening : Schema.Opening}
    {r : Except Schema.LookupError (List SelectionTree)}
    (hgrowth : s.growth config.maxDepth depth expanded f = growth) (hne : growth ≠ .undefined)
    (hopening : growth.opening
      (s.allowanceAt config.maxDepth (depth + 1) (f.type.innermost :: expanded)) = opening)
    (hbelow : Grows s config (Pending.ofOpening opening) r) :
    Grows s config [⟨.field f, s.allowanceAt config.maxDepth depth expanded, isRoot⟩]
      (r.map fun ts => [(Extent.ofOpening opening).tree f.name ts]) := by
  obtain ⟨t, hfind⟩ := Schema.find?_of_growth (hgrowth ▸ hne)
  have hopens : s.openingOf (.field f) (s.allowanceAt config.maxDepth depth expanded) =
      .ok opening := by
    rw [Schema.openingOf, Schema.returnType, hfind]
    simp only [Except.map, Schema.opening_allowanceAt hfind, hgrowth, hopening]
  exact Grows.visit hopens hbelow

theorem Grows.typename (a : Allowance) :
    Grows s config [⟨.typename, a, false⟩] (.ok [.leaf ⟨"__typename", []⟩]) :=
  Grows.visit (p := ⟨.typename, a, false⟩) (o := .leaf) rfl .nil

/-- A walk that comes to a field at some depth, below some expanded types, grows the tree of the
recursion from it. -/
theorem Grows.expand (depth : Nat) (expanded : List String) (f : Schema.Field) (isRoot : Bool) :
    Grows s config [⟨.field f, s.allowanceAt config.maxDepth depth expanded, isRoot⟩]
      ((s.expand config.maxDepth depth expanded f).map fun t => [t]) := by
  induction depth, expanded, f using Schema.expand.induct s config.maxDepth generalizing isRoot with
  | case1 depth expanded f h =>
    have hfind : s.find? f.type.innermost = none := by
      simpa [Schema.Field.isUndefined] using Schema.growth_eq_undefined_iff.mp h
    rw [Schema.expand_eq, h]
    refine Grows.error ?_
    rw [Schema.openingOf, Schema.returnType, hfind]
    rfl
  | case2 depth expanded f h =>
    rw [Schema.expand_eq, h]
    exact Grows.field h (by simp) rfl .nil
  | case3 depth expanded f h =>
    rw [Schema.expand_eq, h]
    exact Grows.field h (by simp) rfl .nil
  | case4 depth expanded f h =>
    rw [Schema.expand_eq, h]
    exact Grows.field h (by simp) rfl (.typename _)
  | case5 depth expanded f gs h ih =>
    have hbelow : Grows s config (Pending.ofOpening (.opens (gs.map .field)
        (s.allowanceAt config.maxDepth (depth + 1) (f.type.innermost :: expanded))))
        (gs.mapM (s.expand config.maxDepth (depth + 1) (f.type.innermost :: expanded))) := by
      rw [Pending.ofOpening, List.map_map]
      exact Grows.mapM fun g _ => ih g false
    have hmap : (s.expand config.maxDepth depth expanded f).map (fun t => [t]) =
        (gs.mapM (s.expand config.maxDepth (depth + 1) (f.type.innermost :: expanded))).map
          fun ts => [.node ⟨f.name, []⟩ ts] := by
      simp only [Schema.expand_eq, h]
      cases gs.mapM (s.expand config.maxDepth (depth + 1) (f.type.innermost :: expanded)) <;> rfl
    rw [hmap]
    exact Grows.field h (by simp) rfl hbelow

/-- The walk from a root field fails with the error of the recursion, or its visits assemble to a
single tree, which is that of the recursion but for the arguments. -/
theorem ofField_eq_expand (s : Schema) (config : Config) (f : Schema.Field) :
    (ofField s config f).map (fun q => q.root.bare) = s.expand config.maxDepth 1 [] f := by
  have hgrows : Grows s config [⟨.field f, s.allowanceAt config.maxDepth 1 [], true⟩]
      ((s.expand config.maxDepth 1 [] f).map fun t => [t]) := Grows.expand 1 [] f true
  rw [ofField_eq, Schema.allowance_eq]
  cases h : s.expand config.maxDepth 1 [] f with
  | error e =>
    rw [h] at hgrows
    have hwalk := hgrows .initial []
    rw [List.append_nil] at hwalk
    rw [hwalk]
    rfl
  | ok t =>
    rw [h] at hgrows
    obtain ⟨st, visits, hwalk, hvisits, hgrown⟩ := hgrows .initial []
    obtain ⟨grown, hlength, hbare, hfold⟩ := hgrown []
    obtain ⟨root, rfl⟩ := List.length_eq_one_iff.mp hlength
    have hroot : (assembleVisits st.visits).headD (.leaf ⟨f.name, []⟩) = root := by
      rw [assembleVisits, hvisits, State.initial, List.append_nil, hfold]
      rfl
    rw [List.append_nil, walk_nil] at hwalk
    rw [hwalk]
    simp only [Except.map, Config.query, hroot]
    exact congrArg Except.ok (List.cons.inj hbare).1

end Synthesis

namespace Schema

/-- The fields of the object type that queries start from, if there is one. -/
def queryFields? (s : Schema) : Option (List Field) := do
  let name ← s.query
  let t ← s.find? name
  match t.shape with
  | .object _ fields => some fields
  | _ => none

theorem rootFields_eq (s : Schema) :
    s.rootFields = match s.queryFields? with
      | some fields => .ok fields
      | none => .error .noRootType := by
  unfold rootFields queryFields?
  cases s.query with
  | none => rfl
  | some name =>
    cases hfind : s.find? name with
    | none => simp [hfind]
    | some t =>
      obtain ⟨_, _, shape⟩ := t
      cases shape <;> simp [hfind]

/-- The tree for the field of the query type with the given name, by the recursion. -/
def expandRoot (s : Schema) (maxDepth : Option Nat) (name : String) :
    Except SynthesisError SelectionTree :=
  match s.queryFields? with
  | none => .error (.schema .noRootType)
  | some fields =>
    match fields.find? (·.name == name) with
    | none => .error (.unknownRootField name (fields.map Field.name))
    | some f => (s.expand maxDepth 1 [] f).mapError .schema

theorem map_synthesize (s : Schema) (config : Synthesis.Config) (name : String) :
    (s.synthesize config name).map (fun q => q.root.bare) = s.expandRoot config.maxDepth name := by
  unfold synthesize expandRoot
  rw [rootFields_eq]
  cases s.queryFields? with
  | none => rfl
  | some fields =>
    cases hfind : fields.find? (·.name == name) with
    | none => simp only [hfind]; rfl
    | some f =>
      simp only [hfind]
      rw [← Synthesis.ofField_eq_expand]
      cases Synthesis.ofField s config f <;> rfl

/-- The errors of the recursion: there is no query type, it has no such field, or the type of a
reached field is not defined; of several such fields the first is named. -/
theorem expandRoot_eq_error_iff {s : Schema} {maxDepth : Option Nat} {name : String}
    {e : SynthesisError} :
    s.expandRoot maxDepth name = .error e ↔
      s.queryFields? = none ∧ e = .schema .noRootType ∨
      ∃ fields, s.queryFields? = some fields ∧
        ((∀ f ∈ fields, f.name ≠ name) ∧ e = .unknownRootField name (fields.map Field.name) ∨
          ∃ f g, fields.find? (·.name == name) = some f ∧
            (s.reached maxDepth 1 [] f).find? (Field.isUndefined s) = some g ∧
            e = .schema (.invalidFieldType g.name g.parent g.type.innermost)) := by
  unfold expandRoot
  constructor
  · intro h
    cases hfields : s.queryFields? with
    | none =>
      rw [hfields] at h
      exact .inl ⟨rfl, (Except.error.inj h).symm⟩
    | some fields =>
      refine .inr ⟨fields, rfl, ?_⟩
      simp only [hfields] at h
      cases hfind : fields.find? (·.name == name) with
      | none =>
        rw [hfind] at h
        exact .inl ⟨by simpa using hfind, (Except.error.inj h).symm⟩
      | some f =>
        simp only [hfind] at h
        cases hexpand : s.expand maxDepth 1 [] f with
        | ok t =>
          rw [hexpand] at h
          contradiction
        | error cause =>
          rw [hexpand] at h
          obtain ⟨g, hg, rfl⟩ := expand_eq_error_iff.mp hexpand
          exact .inr ⟨f, g, rfl, hg, (Except.error.inj h).symm⟩
  · rintro (⟨hfields, rfl⟩ | ⟨fields, hfields, ⟨hnames, rfl⟩ | ⟨f, g, hfind, hg, rfl⟩⟩)
    · rw [hfields]
    · have hfind : fields.find? (·.name == name) = none := by simpa using hnames
      simp only [hfields, hfind]
    · simp only [hfields, hfind, expand_eq_error_iff.mpr ⟨g, hg, rfl⟩]
      rfl

/-- The walk with its stack and the assembly of its visits make the tree of the direct recursion:
the same names, children in the same order, and the same fields cut short. They fail for the same
reasons. -/
theorem synthesize_eq_recursion (s : Schema) (config : Synthesis.Config) (name : String) :
    (s.synthesize config name).map (fun q => q.root.bare) = s.expandRoot config.maxDepth name ∧
    ∀ e, s.synthesize config name = .error e ↔
      s.queryFields? = none ∧ e = .schema .noRootType ∨
      ∃ fields, s.queryFields? = some fields ∧
        ((∀ f ∈ fields, f.name ≠ name) ∧ e = .unknownRootField name (fields.map Field.name) ∨
          ∃ f g, fields.find? (·.name == name) = some f ∧
            (s.reached config.maxDepth 1 [] f).find? (Field.isUndefined s) = some g ∧
            e = .schema (.invalidFieldType g.name g.parent g.type.innermost)) := by
  refine ⟨s.map_synthesize config name, fun e => ?_⟩
  rw [← expandRoot_eq_error_iff, ← map_synthesize]
  cases s.synthesize config name <;> simp [Except.map]

end Schema

end QueryCraft
