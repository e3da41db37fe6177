import Mathlib.Data.List.Forall2
import QueryCraft.Proofs.Document.Reading
import QueryCraft.Proofs.Synthesis.Places

/-!
The arguments of a synthesized query. In the order in which they are written they are bound to the
variables in the order in which these are defined, each with the type and the default of the
parameter that it is an argument for.
-/

namespace QueryCraft

namespace Schema

/-- The arguments at a place, each with the field of the schema that it is for. -/
def Place.bindings (p : Place) : List (Child × Argument) :=
  p.head.arguments.map fun a => (p.child, a)

/-- A variable for an argument is defined like the parameter of the argument's name. -/
def Typed (parameters : List Parameter) (a : Argument) (d : VariableDefinition) : Prop :=
  ∃ p ∈ parameters, p.name = a.name ∧ p.type = d.type ∧ p.default = d.default

/-- The arguments and the variables of a query for a root field correspond. -/
structure Bindings (s : Schema) (config : Synthesis.Config) (f : Field) (q : SynthesizedQuery) :
    Prop where
  /-- Every field of the tree has its place, in the order of the document. -/
  placed : (s.places f q.root).map Place.head = q.root.heads
  named : ∀ p ∈ s.places f q.root, p.head.name = p.child.name
  /-- The root, or every field, has an argument for each of its parameters, in their order. -/
  declared : ∀ p ∈ s.places f q.root, p.head.arguments.map Argument.name =
    if p.isRoot || config.nestedArguments then p.child.parameters.map Parameter.name else []
  /-- Each argument is bound to the variable that is defined at its position. -/
  values : q.root.allArguments.map Argument.value = q.definitions.map fun d => .var d.name
  distinct : (q.definitions.map VariableDefinition.name).Nodup
  /-- Each variable is defined like the parameter that the argument at its position is for. -/
  typed : List.Forall₂ (fun x d => Typed x.1.parameters x.2 d)
    ((s.places f q.root).flatMap Place.bindings) q.definitions

end Schema

namespace Synthesis

variable {s : Schema} {config : Config} {st st' : State} {ps : List Pending}
  {ts : List SelectionTree}

/-- An argument is bound to a variable, which is defined like the parameter. -/
def BoundTo (parameters : List Schema.Parameter) (a : Argument) (d : VariableDefinition) : Prop :=
  a.value = .var d.name ∧ Schema.Typed parameters a d

theorem BoundTo.mono {parameters others : List Schema.Parameter} {a : Argument}
    {d : VariableDefinition} (h : BoundTo parameters a d) (hsub : parameters ⊆ others) :
    BoundTo others a d := by
  obtain ⟨hvalue, p, hp, hlike⟩ := h
  exact ⟨hvalue, p, hsub hp, hlike⟩

theorem names_bindAll (st : State) (ps : List Schema.Parameter) :
    (st.bindAll ps).1.map Argument.name = ps.map Schema.Parameter.name := by
  induction ps generalizing st with
  | nil => rfl
  | cons p ps ih => exact congrArg (p.name :: ·) (ih _)

theorem definitions_bindAll (st : State) (ps : List Schema.Parameter) :
    ∃ ds, (st.bindAll ps).2.definitions = st.definitions ++ ds ∧
      List.Forall₂ (BoundTo ps) (st.bindAll ps).1 ds := by
  induction ps generalizing st with
  | nil => exact ⟨[], (List.append_nil _).symm, .nil⟩
  | cons p ps ih =>
    obtain ⟨ds, hds, hbound⟩ := ih (st.bind p).2
    let d : VariableDefinition := ⟨(st.names.allocate p.name).1, p.type, p.default⟩
    have hfirst : BoundTo (p :: ps) (st.bind p).1 d :=
      ⟨rfl, p, List.mem_cons_self, rfl, rfl, rfl⟩
    have hmore : List.Forall₂ (BoundTo (p :: ps)) ((st.bind p).2.bindAll ps).1 ds :=
      hbound.imp fun _ _ hlike => hlike.mono (List.subset_cons_self p ps)
    refine ⟨d :: ds, ?_, .cons hfirst hmore⟩
    exact hds.trans (List.append_assoc st.definitions [d] ds)

theorem Pending.parameters_subset (p : Pending) (config : Config) :
    p.parameters config ⊆ p.child.parameters := by
  unfold parameters
  split
  · exact List.Subset.refl _
  · exact List.nil_subset _

theorem names_visitOf (st : State) (config : Config) (p : Pending) (o : Schema.Opening) :
    (st.visitOf config p o).head.arguments.map Argument.name =
      if p.isRoot || config.nestedArguments then p.child.parameters.map Schema.Parameter.name
      else [] := by
  rw [State.visitOf, names_bindAll, Pending.parameters, apply_ite (List.map Schema.Parameter.name)]
  rfl

theorem isRoot_of_mem_ofOpening {o : Schema.Opening} {p : Pending} (h : p ∈ Pending.ofOpening o) :
    p.isRoot = false := by
  cases o with
  | leaf | truncated => contradiction
  | opens children rest =>
    obtain ⟨c, -, rfl⟩ := List.mem_map.mp h
    rfl

namespace Traverses

/-- What holds where a field is visited holds at every place of the trees. -/
theorem forall_places {P : Schema.Place → Prop}
    (hP : ∀ (st : State) (p : Pending) (o : Schema.Opening) (above : List Schema.Child)
      (ts : List SelectionTree), p.isRoot = above.isEmpty →
      P ⟨above, p.child, (st.visitOf config p o).tree ts⟩)
    (h : Traverses s config st ps st' ts) (above : List Schema.Child)
    (hroot : ∀ p ∈ ps, p.isRoot = above.isEmpty) :
    ∀ place ∈ s.placesAmong above (ps.map Pending.child) ts, P place := by
  induction h generalizing above with
  | nil => nofun
  | @cons st stBelow st' p ps o ts us opens below behind ihBelow ihBehind =>
    rw [List.forall_mem_cons] at hroot
    rw [placesAmong_tree above ps ts us opens, List.forall_mem_cons, List.forall_mem_append]
    refine ⟨hP st p o above ts hroot.1, ?_, ihBehind above hroot.2⟩
    exact ihBelow (p.child :: above) fun q hq => isRoot_of_mem_ofOpening hq

/-- The definitions that a traversal adds are those of the arguments at the places of its trees, in
the same order. -/
theorem definitions (h : Traverses s config st ps st' ts) (above : List Schema.Child) :
    ∃ ds, st'.definitions = st.definitions ++ ds ∧
      List.Forall₂ (fun x d => BoundTo x.1.parameters x.2 d)
        ((s.placesAmong above (ps.map Pending.child) ts).flatMap Schema.Place.bindings) ds := by
  induction h generalizing above with
  | nil => exact ⟨[], (List.append_nil _).symm, .nil⟩
  | @cons st stBelow st' p ps o ts us opens below behind ihBelow ihBehind =>
    obtain ⟨own, hown, hbound⟩ := definitions_bindAll st (p.parameters config)
    obtain ⟨ds, hds, hbelow⟩ := ihBelow (p.child :: above)
    obtain ⟨ds', hds', hbehind⟩ := ihBehind above
    have hvisited : (st.visited config p o).definitions = st.definitions ++ own := hown
    have hhere : List.Forall₂ (fun x d => BoundTo x.1.parameters x.2 d)
        (Schema.Place.bindings ⟨above, p.child, (st.visitOf config p o).tree ts⟩) own := by
      rw [Schema.Place.bindings, Schema.Place.head, Visit.head_tree, List.forall₂_map_left_iff]
      exact hbound.imp fun _ _ hlike => hlike.mono (p.parameters_subset config)
    refine ⟨own ++ (ds ++ ds'), ?_, ?_⟩
    · rw [hds', hds, hvisited, List.append_assoc, List.append_assoc]
    · rw [placesAmong_tree above ps ts us opens, List.flatMap_cons, List.flatMap_append]
      exact List.rel_append hhere (List.rel_append hbelow hbehind)

end Traverses

end Synthesis

namespace Schema

variable {s : Schema} {config : Synthesis.Config} {name : String} {q : SynthesizedQuery}

theorem map_bindings (ps : List Place) :
    (ps.flatMap Place.bindings).map Prod.snd = (ps.map Place.head).flatMap TreeHead.arguments := by
  simp [List.map_flatMap, List.flatMap_map, Place.bindings, Function.comp_def]

/-- The variables of a synthesized query are different. -/
theorem nodup_of_synthesize (h : s.synthesize config name = .ok q) :
    (q.definitions.map VariableDefinition.name).Nodup := by
  obtain ⟨-, f, st, -, -, hwalk, rfl⟩ := synthesize_ok h
  exact ((Synthesis.State.Scoped.initial.walk hwalk).query config f).1

/-- The arguments of a synthesized query, in the order of the document, and its variables, in the
order of their definitions, correspond one to one, and so do they to the parameters of its fields.
-/
theorem bindings_of_synthesize (h : s.synthesize config name = .ok q) :
    ∃ fields f, s.rootFields = .ok fields ∧ fields.find? (·.name == name) = some f ∧
      s.Bindings config f q := by
  obtain ⟨fields, f, st, hfields, hfind, hst, hdefinitions⟩ := traverses_of_synthesize h
  obtain ⟨ds, hds, hbound⟩ := hst.definitions []
  have hall : q.definitions = ds := hdefinitions.trans hds
  have hplaced : (s.places f q.root).map Place.head = q.root.heads := hst.heads_places
  rw [List.map_singleton, ← places_eq, ← hall] at hbound
  refine ⟨fields, f, hfields, hfind, ?_⟩
  constructor
  case placed => exact hplaced
  case named =>
    rw [places_eq]
    refine hst.forall_places (fun st p o above ts _ => ?_) [] (by simp)
    rw [Place.head, Synthesis.Visit.head_tree]
    rfl
  case declared =>
    rw [places_eq]
    refine hst.forall_places (fun st p o above ts hroot => ?_) [] (by simp)
    rw [Place.head, Synthesis.Visit.head_tree, Place.isRoot, ← hroot]
    exact Synthesis.names_visitOf st config p o
  case values =>
    rw [SelectionTree.allArguments, ← hplaced, ← map_bindings, List.map_map,
      ← List.forall₂_eq_eq_eq, List.forall₂_map_left_iff, List.forall₂_map_right_iff]
    exact hbound.imp fun _ _ hlike => hlike.1
  case distinct => exact nodup_of_synthesize h
  case typed => exact hbound.imp fun _ _ hlike => hlike.2

def blogSchema : Schema where
  query := some "Query"
  types := [
    ⟨"Query", none, .object [] [
      ⟨"user", "Query", .named "User" true, [⟨"id", .named "ID" false, none⟩]⟩]⟩,
    ⟨"User", none, .object [] [
      ⟨"id", "User", .named "ID" true, []⟩,
      ⟨"posts", "User", .list (.named "Post" true) true,
        [⟨"id", .named "ID" true, none⟩, ⟨"first", .named "Int" true, some (.int 10)⟩]⟩]⟩,
    ⟨"Post", none, .object [] [
      ⟨"author", "Post", .named "User" true, [⟨"id", .named "ID" true, none⟩]⟩]⟩,
    ⟨"ID", none, .builtin .id⟩]

/-- Three parameters have the same name; the last is that of a field that is cut short. -/
theorem bindings_of_synthesize_user :
    ∃ q, blogSchema.synthesize ⟨true, none, none, 2⟩ "user" = .ok q ∧
      q.definitions.map VariableDefinition.name = ["id", "id1", "first", "id2"] ∧
      ∃ fields f, blogSchema.rootFields = .ok fields ∧
        fields.find? (·.name == "user") = some f ∧
        blogSchema.Bindings ⟨true, none, none, 2⟩ f q := by
  have hrun : (blogSchema.synthesize ⟨true, none, none, 2⟩ "user").toOption.any (fun q =>
      q.definitions.map VariableDefinition.name == ["id", "id1", "first", "id2"]) = true := by
    rw [synthesize_eq_byWalk]
    decide +kernel
  obtain ⟨q, hq, hnames⟩ := exists_of_toOption_any hrun
  exact ⟨q, hq, eq_of_beq hnames, bindings_of_synthesize hq⟩

end Schema

end QueryCraft
