import QueryCraft.Document.Fold
import QueryCraft.Proofs.Document.Preorder

/-!
The visits of a fold. They depend on the document and on the names of the fields that are dropped,
and on nothing that the fold does when it visits.
-/

namespace QueryCraft

def Directive.visits (d : Directive) : List Visit :=
  .directive d :: d.arguments.map .argument

/-- The visits of what a field holds besides the selections below it. -/
def Field.visits (f : Field) : List Visit :=
  f.arguments.map .argument ++ f.directives.flatMap Directive.visits

def Field.isNamedIn (names : List String) (f : Field) : Bool :=
  names.contains f.name

@[simp]
theorem Field.isNamedIn_nil (f : Field) : f.isNamedIn [] = false :=
  rfl

namespace Selection

mutual

/-- The visits of a selection below fields with the given response names. A field of one of the
dropped names is visited, but nothing in it. -/
def visits (drop path : List String) : Selection → List Visit
  | .leaf f => .field path f :: if f.isNamedIn drop then [] else f.visits
  | .branch f children =>
    .field path f :: if f.isNamedIn drop then [] else
      f.visits ++ .set (path ++ [f.responseName]) ::
        listVisits drop (path ++ [f.responseName]) children
  | .verbatim node => [.verbatim node]

def listVisits (drop path : List String) : List Selection → List Visit
  | [] => []
  | s :: ss => visits drop path s ++ listVisits drop path ss

end

mutual

/-- The selection without the fields of the given names, at every level; none is left of such a
field. -/
def without? (drop : List String) : Selection → Option Selection
  | .leaf f => if f.isNamedIn drop then none else some (.leaf f)
  | .branch f children =>
    if f.isNamedIn drop then none else some (.branch f (listWithout drop children))
  | .verbatim node => some (.verbatim node)

def listWithout (drop : List String) : List Selection → List Selection
  | [] => []
  | s :: ss => (without? drop s).toList ++ listWithout drop ss

end

end Selection

/-- The visits of a document: its selections, then the directives of the operation, then the
definitions of its variables. -/
def Document.visits (drop : List String) (d : Document) : List Visit :=
  .document :: .operation :: .set [] ::
    (Selection.listVisits drop [] d.operation.selections ++
      d.operation.directives.flatMap Directive.visits ++ d.operation.definitions.map .definition)

/-- The document without the fields of the given names and what is below them. -/
def Document.without (drop : List String) (d : Document) : Document where
  operation :=
    { d.operation with selections := Selection.listWithout drop d.operation.selections }
  auxiliary := d.auxiliary

namespace Folder

variable {m : Type → Type} [Monad m]

/-- Does something on each visit and changes nothing, except that the fields of some names are
dropped. -/
def reporting (visit : Visit → m Unit) (drop : List String) : Folder m where
  visit := visit
  keeps f := !f.isNamedIn drop

section

variable (visit : Visit → m Unit) (drop : List String)

@[simp]
theorem visit_reporting : (reporting visit drop).visit = visit :=
  rfl

@[simp]
theorem keeps_reporting (f : Field) : (reporting visit drop).keeps f = !f.isNamedIn drop :=
  rfl

@[simp]
theorem onArgument_reporting : (reporting visit drop).onArgument = pure :=
  rfl

@[simp]
theorem onDefinition_reporting : (reporting visit drop).onDefinition = pure :=
  rfl

variable [LawfulMonad m]

theorem arguments_reporting (as : List Argument) :
    (reporting visit drop).arguments as =
      (do forM (as.map .argument) visit; pure as) := by
  induction as with
  | nil => simp [arguments]
  | cons a as ih => simp [arguments, argument, ih]

theorem directives_reporting (ds : List Directive) :
    (reporting visit drop).directives ds =
      (do forM (ds.flatMap Directive.visits) visit; pure ds) := by
  induction ds with
  | nil => simp [directives]
  | cons d ds ih =>
    simp [directives, directive, arguments_reporting, ih, Directive.visits]

theorem field_reporting (f : Field) :
    (reporting visit drop).field f =
      (do forM f.visits visit; pure f) := by
  simp [field, arguments_reporting, directives_reporting, Field.visits]

theorem definitions_reporting (ds : List VariableDefinition) :
    (reporting visit drop).definitions ds =
      (do forM (ds.map .definition) visit; pure ds) := by
  induction ds with
  | nil => simp [definitions]
  | cons d ds ih => simp [definitions, ih]

theorem selections_reporting {path : List String} {ss : List Selection}
    (h : ∀ s ∈ ss, (reporting visit drop).selection path s =
      (do forM (s.visits drop path) visit; pure (s.without? drop))) :
    (reporting visit drop).selections path ss =
      (do
        forM (Selection.listVisits drop path ss) visit
        pure (Selection.listWithout drop ss)) := by
  induction ss with
  | nil => simp [selections, Selection.listVisits, Selection.listWithout]
  | cons s ss ih =>
    rw [List.forall_mem_cons] at h
    simp [selections, h.1, ih h.2, Selection.listVisits, Selection.listWithout]

theorem selection_reporting (s : Selection) (path : List String) :
    (reporting visit drop).selection path s =
      (do forM (s.visits drop path) visit; pure (s.without? drop)) := by
  induction s using Selection.inductOn generalizing path with
  | leaf f =>
    simp only [selection, field_reporting, Selection.visits, Selection.without?]
    cases h : f.isNamedIn drop <;> simp [h]
  | verbatim node => simp [selection, Selection.visits, Selection.without?]
  | branch f children ih =>
    have hchildren := selections_reporting visit drop
      fun s hs => ih s hs (path ++ [f.responseName])
    simp only [selection, field_reporting, hchildren, Selection.visits, Selection.without?]
    cases h : f.isNamedIn drop <;> simp [h]

/-- Whatever a fold does on its visits, it does it on the visits of the document in their order. -/
theorem document_reporting (d : Document) :
    (reporting visit drop).document d =
      (do forM (d.visits drop) visit; pure (d.without drop)) := by
  have hselections := selections_reporting visit drop
    fun s (_ : s ∈ d.operation.selections) => selection_reporting visit drop s []
  simp [document, operation, hselections, directives_reporting, definitions_reporting,
    Document.visits, Document.without]

end

/-- Recording puts the visits behind those recorded before. -/
theorem run_forM_record (vs log : List Visit) :
    (forM vs fun v => modify (· ++ [v]) : StateM (List Visit) Unit).run log = ((), log ++ vs) := by
  induction vs generalizing log with
  | nil => rw [List.append_nil]; rfl
  | cons v vs ih => simp [ih]

/-- A fold that only records returns the document without the fields that it drops, and has recorded
the visits. -/
theorem run_tracing (drop : List String) (d : Document) (log : List Visit) :
    ((tracing drop).document d).run log = (d.without drop, log ++ d.visits drop) := by
  have htracing : tracing drop = reporting (fun v => modify (· ++ [v])) drop := rfl
  rw [htracing, document_reporting, StateT.run_bind, run_forM_record]
  rfl

end Folder

/-- Whether neither the selection nor a field around it has one of the names. -/
def Located.isOutside (names : List String) (l : Located) : Bool :=
  (l.above ++ l.selection.field?.toList).all fun f => !f.isNamedIn names

theorem Located.isOutside_iff {names : List String} {l : Located} :
    l.isOutside names = true ↔ (∀ f ∈ l.above, f.isNamedIn names = false) ∧
      ∀ f ∈ l.selection.field?, f.isNamedIn names = false := by
  simp [isOutside]

theorem Located.isOutside_field {names : List String} {above : List Field} {s : Selection}
    {f : Field} (habove : ∀ g ∈ above, g.isNamedIn names = false) (hs : s.field? = some f) :
    isOutside names ⟨above, s⟩ = !f.isNamedIn names := by
  rw [Bool.eq_iff_iff, isOutside_iff, hs]
  simpa using fun _ => habove

/-- The selection without what is below it. -/
def Selection.alone : Selection → Selection
  | .branch f _ => .branch f []
  | s => s

def Located.alone (l : Located) : Located :=
  ⟨l.above, l.selection.alone⟩

/-- How the selection is visited by a fold that comes to it. -/
def Located.visit (l : Located) : Visit :=
  match l.selection with
  | .leaf f | .branch f _ => .field l.path f
  | .verbatim node => .verbatim node

def Visit.isSelection : Visit → Bool
  | .field .. | .verbatim _ => true
  | _ => false

/-- Whether a field of one of the names is visited. -/
def Visit.isFieldNamedIn (names : List String) : Visit → Bool
  | .field _ f => f.isNamedIn names
  | _ => false

/-- In directives, only they and their arguments are visited. -/
theorem Directive.forall_visits {P : Visit → Prop} (hargument : ∀ a, P (.argument a))
    (hdirective : ∀ d, P (.directive d)) (ds : List Directive) :
    ∀ v ∈ ds.flatMap visits, P v := by
  rw [List.forall_mem_flatMap]
  intro d _
  rw [visits, List.forall_mem_cons, List.forall_mem_map]
  exact ⟨hdirective d, fun a _ => hargument a⟩

theorem Field.forall_visits {P : Visit → Prop} (hargument : ∀ a, P (.argument a))
    (hdirective : ∀ d, P (.directive d)) (f : Field) : ∀ v ∈ f.visits, P v := by
  rw [visits, List.forall_mem_append, List.forall_mem_map]
  exact ⟨fun a _ => hargument a, Directive.forall_visits hargument hdirective f.directives⟩

namespace Selection

variable {drop path : List String} {above : List Field}

theorem listWithout_eq_flatMap (drop : List String) (ss : List Selection) :
    listWithout drop ss = ss.flatMap fun s => (s.without? drop).toList := by
  induction ss with
  | nil => rfl
  | cons s ss ih => rw [listWithout, ih, List.flatMap_cons]

theorem listVisits_eq_flatMap (drop path : List String) (ss : List Selection) :
    listVisits drop path ss = ss.flatMap (visits drop path) := by
  induction ss with
  | nil => rfl
  | cons s ss ih => rw [listVisits, ih, List.flatMap_cons]

theorem above_subset_of_mem_located {s : Selection} {l : Located} (h : l ∈ s.located above) :
    above ⊆ l.above := by
  induction s using Selection.inductOn generalizing above with
  | leaf f | verbatim node =>
    obtain rfl := List.mem_singleton.mp h
    exact List.Subset.refl above
  | branch f children ih =>
    rw [located_branch] at h
    rcases List.mem_cons.mp h with rfl | h
    · exact List.Subset.refl above
    · obtain ⟨s, hs, hl⟩ := List.mem_flatMap.mp h
      exact List.Subset.trans (List.subset_append_left above [f]) (ih s hs hl)

/-- Dropping fields leaves of all selections those that are outside of these fields. -/
theorem map_alone_located_without (drop : List String) (above : List Field)
    (habove : ∀ f ∈ above, f.isNamedIn drop = false) (s : Selection) :
    ((s.without? drop).toList.flatMap (located above)).map Located.alone =
      ((s.located above).filter (Located.isOutside drop)).map Located.alone := by
  induction s using Selection.inductOn generalizing above with
  | verbatim node =>
    have hself : Located.isOutside drop ⟨above, .verbatim node⟩ = true :=
      Located.isOutside_iff.mpr ⟨habove, nofun⟩
    simp [without?, located, hself]
  | leaf f =>
    have hself := Located.isOutside_field (s := .leaf f) habove rfl
    cases hf : f.isNamedIn drop <;> simp [without?, located, hself, hf]
  | branch f children ih =>
    have hself := Located.isOutside_field (s := .branch f children) habove rfl
    cases hf : f.isNamedIn drop with
    | true =>
      -- The field is around everything below it, so nothing of that is outside.
      have hbelow : ∀ l ∈ children.flatMap (located (above ++ [f])),
          ¬l.isOutside drop = true := by
        intro l hl houtside
        obtain ⟨s, -, hl⟩ := List.mem_flatMap.mp hl
        have haround : f ∈ l.above := above_subset_of_mem_located hl (by simp)
        have hspared := (Located.isOutside_iff.mp houtside).1 f haround
        exact absurd hf (Bool.eq_false_iff.mp hspared)
      rw [located_branch, List.filter_cons, hself, hf, List.filter_eq_nil_iff.mpr hbelow]
      simp [without?, hf]
    | false =>
      have hbelow : ∀ g ∈ above ++ [f], g.isNamedIn drop = false := by
        rw [List.forall_mem_append]
        exact ⟨habove, List.forall_mem_singleton.mpr hf⟩
      have hchildren : ((listWithout drop children).flatMap (located (above ++ [f]))).map
          Located.alone = ((children.flatMap (located (above ++ [f]))).filter
            (Located.isOutside drop)).map Located.alone := by
        rw [listWithout_eq_flatMap, List.flatMap_assoc, List.filter_flatMap, List.map_flatMap,
          List.map_flatMap]
        exact List.flatMap_congr fun s hs => ih s hs (above ++ [f]) hbelow
      simp only [without?, hf, Bool.false_eq_true, if_false, Option.toList_some,
        List.flatMap_singleton, located_branch, List.map_cons, List.filter_cons, hself,
        Bool.not_false, if_true, hchildren]
      rfl

theorem filter_listVisits {ss : List Selection}
    (h : ∀ s ∈ ss, (s.visits drop path).filter (fun v => !v.isFieldNamedIn drop) =
      (s.without? drop).toList.flatMap (visits [] path)) :
    (listVisits drop path ss).filter (fun v => !v.isFieldNamedIn drop) =
      listVisits [] path (listWithout drop ss) := by
  rw [listVisits_eq_flatMap, listVisits_eq_flatMap, listWithout_eq_flatMap, List.flatMap_assoc,
    List.filter_flatMap]
  exact List.flatMap_congr h

/-- Apart from the dropped fields themselves, the same is visited as without them. -/
theorem filter_visits (drop path : List String) (s : Selection) :
    (s.visits drop path).filter (fun v => !v.isFieldNamedIn drop) =
      (s.without? drop).toList.flatMap (visits [] path) := by
  have hself (path : List String) (f : Field) :
      Visit.isFieldNamedIn drop (.field path f) = f.isNamedIn drop := rfl
  have hfield (f : Field) : f.visits.filter (fun v => !v.isFieldNamedIn drop) = f.visits :=
    List.filter_eq_self.mpr (f.forall_visits (fun _ => rfl) fun _ => rfl)
  induction s using Selection.inductOn generalizing path with
  | verbatim node => rfl
  | leaf f => cases hf : f.isNamedIn drop <;> simp [visits, without?, hself, hf, hfield]
  | branch f children ih =>
    have hset (path : List String) : Visit.isFieldNamedIn drop (.set path) = false := rfl
    have hchildren := filter_listVisits fun s hs => ih s hs (path ++ [f.responseName])
    cases hf : f.isNamedIn drop <;>
      simp [visits, without?, hself, hset, hf, hfield, hchildren]

theorem listWithout_nil {ss : List Selection} (h : ∀ s ∈ ss, s.without? [] = some s) :
    listWithout [] ss = ss := by
  rw [listWithout_eq_flatMap, List.flatMap_congr fun s hs => congrArg Option.toList (h s hs)]
  exact List.flatMap_singleton' ss

theorem without?_nil (s : Selection) : s.without? [] = some s := by
  induction s using Selection.inductOn with
  | leaf f | verbatim node => rfl
  | branch f children ih =>
    rw [without?, listWithout_nil ih]
    rfl

/-- Selections are visited in the order in which they are written, each once and with the response
names of the fields around it. -/
theorem filter_isSelection_visits (above : List Field) (s : Selection) :
    (s.visits [] (above.map Field.responseName)).filter Visit.isSelection =
      (s.located above).map Located.visit := by
  have hself (path : List String) (f : Field) : Visit.isSelection (.field path f) = true := rfl
  have hfield (f : Field) : f.visits.filter Visit.isSelection = [] :=
    List.filter_eq_nil_iff.mpr
      (f.forall_visits (fun _ => Bool.false_ne_true) fun _ => Bool.false_ne_true)
  induction s using Selection.inductOn generalizing above with
  | verbatim node => rfl
  | leaf f =>
    simp only [visits, Field.isNamedIn_nil, Bool.false_eq_true, if_false, List.filter_cons, hself,
      if_true, hfield]
    rfl
  | branch f children ih =>
    have hset (path : List String) : Visit.isSelection (.set path) = false := rfl
    have hpath : above.map Field.responseName ++ [f.responseName] =
        (above ++ [f]).map Field.responseName := by rw [List.map_append]; rfl
    have hchildren : (listVisits [] ((above ++ [f]).map Field.responseName) children).filter
        Visit.isSelection = (children.flatMap (located (above ++ [f]))).map Located.visit := by
      rw [listVisits_eq_flatMap, List.filter_flatMap, List.map_flatMap]
      exact List.flatMap_congr fun s hs => ih s hs (above ++ [f])
    simp only [visits, Field.isNamedIn_nil, Bool.false_eq_true, if_false, List.filter_cons,
      List.filter_append, hself, hset, if_true, hfield, List.nil_append, hpath, hchildren,
      located_branch, List.map_cons]
    rfl

end Selection

namespace Document

theorem without_nil (d : Document) : d.without [] = d := by
  rw [without, Selection.listWithout_nil fun s _ => s.without?_nil]

theorem trace_eq (drop : List String) (d : Document) :
    d.trace drop = (d.without drop, d.visits drop) :=
  Folder.run_tracing drop d []

theorem trivial_eq (d : Document) : Folder.trivial.document d = d := by
  have htrivial : Folder.trivial = Folder.reporting (fun _ => pure ()) [] := rfl
  rw [htrivial, Folder.document_reporting, without_nil]
  rfl

theorem filter_visits (drop : List String) (d : Document) :
    (d.visits drop).filter (fun v => !v.isFieldNamedIn drop) = (d.without drop).visits [] := by
  have hselections := Selection.filter_listVisits
    fun s (_ : s ∈ d.operation.selections) => s.filter_visits drop []
  have hdirectives : (d.operation.directives.flatMap Directive.visits).filter
      (fun v => !v.isFieldNamedIn drop) = d.operation.directives.flatMap Directive.visits :=
    List.filter_eq_self.mpr (Directive.forall_visits (fun _ => rfl) (fun _ => rfl) _)
  have hdefinitions : (d.operation.definitions.map Visit.definition).filter
      (fun v => !v.isFieldNamedIn drop) = d.operation.definitions.map Visit.definition :=
    List.filter_eq_self.mpr (List.forall_mem_map.mpr fun _ _ => rfl)
  simp only [visits, List.filter_cons, List.filter_append, hselections, hdirectives, hdefinitions]
  rfl

theorem filter_isSelection_visits (d : Document) :
    (d.visits []).filter Visit.isSelection = d.located.map Located.visit := by
  have hselections : (Selection.listVisits [] [] d.operation.selections).filter
      Visit.isSelection = d.located.map Located.visit := by
    rw [Selection.listVisits_eq_flatMap, List.filter_flatMap, located,
      Selection.listLocated_eq_flatMap, List.map_flatMap]
    exact List.flatMap_congr fun s _ => Selection.filter_isSelection_visits [] s
  have hdirectives : (d.operation.directives.flatMap Directive.visits).filter
      Visit.isSelection = [] :=
    List.filter_eq_nil_iff.mpr
      (Directive.forall_visits (fun _ => Bool.false_ne_true) (fun _ => Bool.false_ne_true) _)
  have hdefinitions : (d.operation.definitions.map Visit.definition).filter
      Visit.isSelection = [] :=
    List.filter_eq_nil_iff.mpr (List.forall_mem_map.mpr fun _ _ => Bool.false_ne_true)
  simp only [visits, List.filter_cons, List.filter_append, hselections, hdirectives, hdefinitions]
  exact (List.append_nil _).trans (List.append_nil _)

theorem map_alone_located_without (drop : List String) (d : Document) :
    (d.without drop).located.map Located.alone =
      (d.located.filter (Located.isOutside drop)).map Located.alone := by
  rw [located, located, without, Selection.listLocated_eq_flatMap,
    Selection.listLocated_eq_flatMap, Selection.listWithout_eq_flatMap, List.flatMap_assoc,
    List.filter_flatMap, List.map_flatMap, List.map_flatMap]
  exact List.flatMap_congr fun s _ =>
    Selection.map_alone_located_without drop [] (List.forall_mem_nil _) s

/-- A fold that changes nothing gives back the document, and one that records its visits has visited
each selection once in the order of the document, with the directives of the operation behind them
and the definitions last. If it drops the fields of some names, the selections that are left are
those outside of such fields, and nothing is visited that is not visited without them, but the
dropped fields themselves. -/
theorem trace_eq_visits (drop : List String) (d : Document) :
    Folder.trivial.document d = d ∧ d.trace [] = (d, d.visits []) ∧
      (d.visits []).filter Visit.isSelection = d.located.map Located.visit ∧
      d.trace drop = (d.without drop, d.visits drop) ∧
      (d.without drop).located.map Located.alone =
        (d.located.filter (Located.isOutside drop)).map Located.alone ∧
      (d.visits drop).filter (fun v => !v.isFieldNamedIn drop) = (d.without drop).visits [] := by
  refine ⟨d.trivial_eq, ?_, d.filter_isSelection_visits, d.trace_eq drop,
    d.map_alone_located_without drop, d.filter_visits drop⟩
  rw [trace_eq, without_nil]

end Document

end QueryCraft
