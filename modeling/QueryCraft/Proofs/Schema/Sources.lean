import QueryCraft.Proofs.Schema.Steps

/-!
Sources of definitions. Where a definition stands decides nothing but the locations in errors: each
step of building can be repeated on definitions and builders without places, and what sources build
is what their definitions build.
-/

namespace QueryCraft.Schema

/-- A text, under the name of a file or without a name, or a path with what it leads to. -/
inductive Source where
  | text (file : Option String) (text : String)
  | file (path : String) (found : Lookup)

namespace Source

def text? : Source → Option String
  | .text _ content => some content
  | .file _ (.ok (.file content)) => String.fromUTF8? content
  | .file _ _ => none

/-- The definitions of a source that can be read and parsed. -/
def definitions? (s : Source) : Option (List Definition) :=
  s.text?.bind Schema.definitions?

/-- The definitions of all sources in the order in which they are loaded. -/
def allDefinitions? (sources : List Source) : Option (List Definition) :=
  (sources.mapM definitions?).map List.flatten

theorem allDefinitions?_cons {s : Source} {sources : List Source} {ds : List Definition} :
    allDefinitions? (s :: sources) = some ds ↔
      ∃ first rest, s.definitions? = some first ∧ allDefinitions? sources = some rest ∧
        first ++ rest = ds := by
  simp only [allDefinitions?, List.mapM_cons, Option.map_eq_some_iff, Option.bind_eq_bind,
    Option.bind_eq_some_iff]
  constructor
  · rintro ⟨_, ⟨first, hfirst, lists, hlists, heq⟩, rfl⟩
    obtain rfl := Option.some.inj heq
    exact ⟨first, lists.flatten, hfirst, ⟨lists, hlists, rfl⟩, rfl⟩
  · rintro ⟨first, _, hfirst, ⟨lists, hlists, rfl⟩, rfl⟩
    exact ⟨first :: lists, ⟨first, hfirst, lists, hlists, rfl⟩, rfl⟩

end Source

namespace Builder

def load (b : Builder) : Source → Except BuildError Builder
  | .text file text => b.loadText file text
  | .file path found => b.loadFile path found

def loadAll (b : Builder) (sources : List Source) : Except BuildError Builder :=
  sources.foldlM load b

/-- Takes in definitions, each with the name of its source. -/
def addEach (b : Builder) (ds : List (String × Definition)) : Except BuildError Builder :=
  ds.foldlM (fun b d => b.add d.1 d.2) b

end Builder

/-- What sources build, loaded one after the other. -/
def ofSources (sources : List Source) : Except BuildError Schema :=
  Builder.initial.loadAll sources >>= Builder.build

/-- What definitions build, each with the name of its source. -/
def ofPlaced (ds : List (String × Definition)) : Except BuildError Schema :=
  Builder.initial.addEach ds >>= Builder.build

/-! Without places. -/

def Location.unplaced : Location → Location
  | .builtin => .builtin
  | .source _ _ => .source "" .start

/-- An error without the places that it reports. -/
def BuildError.unplaced : BuildError → BuildError
  | .duplicateField type field l => .duplicateField type field l.unplaced
  | .duplicateQueryType first l second m =>
    .duplicateQueryType first l.unplaced second m.unplaced
  | .duplicateType type l m => .duplicateType type l.unplaced m.unplaced
  | .undefinedExtension type l => .undefinedExtension type l.unplaced
  | .reservedName type l => .reservedName type l.unplaced
  | .invalidExtension type kind extension l =>
    .invalidExtension type kind extension l.unplaced
  | .malformed _ => .malformed ""
  | .unreadable cause => .unreadable cause

def FieldDefinition.unplaced (d : FieldDefinition) : FieldDefinition :=
  { d with position := .start }

def InputField.unplaced (f : InputField) : InputField :=
  { f with position := .start }

def Member.unplaced {α : Type} (m : Member α) : Member α :=
  { m with position := .start }

def Body.unplaced : Body → Body
  | .object interfaces fields => .object interfaces (fields.map FieldDefinition.unplaced)
  | .interface interfaces fields => .interface interfaces (fields.map FieldDefinition.unplaced)
  | .input fields => .input (fields.map InputField.unplaced)
  | body => body

def TypeDefinition.unplaced (d : TypeDefinition) : TypeDefinition :=
  { d with position := .start, body := d.body.unplaced }

def TypeExtension.unplaced (e : TypeExtension) : TypeExtension :=
  { e with position := .start, body := e.body.unplaced }

/-- A definition without the positions in its source. -/
def Definition.unplaced : Definition → Definition
  | .schema _ query => .schema .start query
  | .type d => .type d.unplaced
  | .extension e => .extension e.unplaced
  | .directive => .directive

/-- A builder that has lost where things came from. -/
def Builder.unplaced (b : Builder) : Builder where
  locations := b.locations.map fun e => (e.1, e.2.unplaced)
  types := b.types
  extensions := b.extensions.map fun e => ("", e.2.unplaced)
  query := b.query.map fun q => (q.1, q.2.unplaced)
  unnamedSources := 0

/-! The steps of building. -/

theorem addMembers_unplaced {α : Type} (file type : String) (ms : Keyed.Map α)
    (new : List (Member α)) :
    translate id BuildError.unplaced (addMembers file type ms new) =
      addMembers "" type ms (new.map Member.unplaced) := by
  induction new generalizing ms with
  | nil => rfl
  | cons m rest ih =>
    rw [List.map_cons, addMembers, addMembers]
    by_cases htaken : ms.any (·.1 == m.name) = true
    · have htaken' : ms.any (·.1 == m.unplaced.name) = true := htaken
      rw [if_pos htaken, if_pos htaken']
      rfl
    · have htaken' : ¬ ms.any (·.1 == m.unplaced.name) = true := htaken
      rw [if_neg htaken, if_neg htaken']
      exact ih _

theorem addFields_unplaced (file type parent : String) (ms : Keyed.Map FieldDraft)
    (ds : List FieldDefinition) :
    translate id BuildError.unplaced (addMembers file type ms (ds.map (·.member parent))) =
      addMembers "" type ms ((ds.map FieldDefinition.unplaced).map (·.member parent)) := by
  rw [addMembers_unplaced, List.map_map, List.map_map]
  rfl

theorem addInputs_unplaced (file type : String) (ms : Keyed.Map Parameter)
    (fs : List InputField) :
    translate id BuildError.unplaced (addMembers file type ms (fs.map InputField.member)) =
      addMembers "" type ms ((fs.map InputField.unplaced).map InputField.member) := by
  rw [addMembers_unplaced, List.map_map, List.map_map]
  rfl

theorem ShapeDraft.ofBody_unplaced (file type : String) (body : Body) :
    translate id BuildError.unplaced (ofBody file type body) = ofBody "" type body.unplaced := by
  cases body with
  | object interfaces fields | interface interfaces fields =>
    rw [ofBody, translate_map, addFields_unplaced]
    rfl
  | input fields =>
    rw [ofBody, translate_map, addInputs_unplaced]
    rfl
  | scalar | union members | enum values => rfl

theorem Body.kind_unplaced (b : Body) : b.unplaced.kind = b.kind := by
  cases b <;> rfl

theorem TypeDraft.extendedShape_unplaced (file : String) (t : TypeDraft) (e : TypeExtension) :
    translate id BuildError.unplaced (t.extendedShape file e) = t.extendedShape "" e.unplaced := by
  obtain ⟨name, description, shape⟩ := t
  obtain ⟨position, type, body⟩ := e
  -- Only the three kinds that have members of their own can fail.
  cases shape <;> cases body <;> try rfl
  case object.object interfaces fields moreInterfaces moreFields =>
    exact (translate_map _).trans (congrArg _ (addFields_unplaced file name name fields moreFields))
  case interface.interface interfaces fields moreInterfaces moreFields =>
    exact (translate_map _).trans (congrArg _ (addFields_unplaced file name name fields moreFields))
  case input.input fields moreFields =>
    exact (translate_map _).trans (congrArg _ (addInputs_unplaced file type fields moreFields))

theorem mergeExtension_unplaced (types : Keyed.Map TypeDraft) (file : String) (e : TypeExtension) :
    translate id BuildError.unplaced (mergeExtension types file e) =
      mergeExtension types "" e.unplaced := by
  induction types with
  | nil => rfl
  | cons entry ts ih =>
    obtain ⟨name, t⟩ := entry
    have hbody : e.unplaced.body.kind = e.body.kind := e.body.kind_unplaced
    unfold mergeExtension
    rw [hbody]
    by_cases hname : name = e.name
    · have hname' : name = e.unplaced.name := hname
      rw [if_pos hname, if_pos hname']
      by_cases hkind : t.shape.kind = e.body.kind
      · rw [if_pos hkind, if_pos hkind, translate_map, t.extendedShape_unplaced]
      · rw [if_neg hkind, if_neg hkind]
        rfl
    · have hname' : name ≠ e.unplaced.name := hname
      rw [if_neg hname, if_neg hname', translate_map, ih]

namespace Builder

theorem declare_unplaced (b : Builder) (name : String) (t : TypeDraft) (location : Location) :
    translate unplaced BuildError.unplaced (b.declare name t location) =
      b.unplaced.declare name t location.unplaced := by
  have hlookup : b.unplaced.locations.lookup name =
      (b.locations.lookup name).map Location.unplaced :=
    Keyed.lookup_map Location.unplaced name b.locations
  unfold declare
  rw [hlookup]
  by_cases hreserved : isReserved name = true
  · rw [if_pos hreserved, if_pos hreserved]
    rfl
  · rw [if_neg hreserved, if_neg hreserved]
    cases b.locations.lookup name with
    | some first => rfl
    | none =>
      simp only [translate, unplaced, Option.map_none, Keyed.insert_map]

theorem add_unplaced (file : String) (b : Builder) (d : Definition) :
    translate unplaced BuildError.unplaced (b.add file d) = b.unplaced.add "" d.unplaced := by
  cases d with
  | schema position query =>
    cases query with
    | none => rfl
    | some type =>
      obtain ⟨locations, types, extensions, chosen, unnamedSources⟩ := b
      cases chosen <;> rfl
  | type d =>
    have hdeclare (shape : ShapeDraft) := declare_unplaced b d.name ⟨d.name, d.description, shape⟩
      (.source file d.position)
    calc translate unplaced BuildError.unplaced (b.add file (.type d))
      _ = translate id BuildError.unplaced (ShapeDraft.ofBody file d.name d.body) >>= fun shape =>
            b.unplaced.declare d.name ⟨d.name, d.description, shape⟩ (.source "" .start) :=
        translate_bind _ hdeclare
      _ = b.unplaced.add "" (.type d.unplaced) := by
        rw [ShapeDraft.ofBody_unplaced]
        rfl
  | extension e =>
    simp only [add, translate, unplaced, List.map_append]
    rfl
  | directive => rfl

theorem addEach_unplaced (b : Builder) (ds : List (String × Definition)) :
    translate unplaced BuildError.unplaced (b.addEach ds) =
      b.unplaced.addEach (ds.map fun d => ("", d.2.unplaced)) :=
  translate_foldlM (fun d _ b => add_unplaced d.1 b d.2) b

theorem build_unplaced (b : Builder) :
    translate id BuildError.unplaced b.build = b.unplaced.build := by
  have hmerged : translate id BuildError.unplaced b.mergedTypes = b.unplaced.mergedTypes :=
    translate_foldlM (fun e _ types => mergeExtension_unplaced types e.1 e.2) b.types
  have hquery : b.unplaced.query.map Prod.fst = b.query.map Prod.fst := by
    simp [unplaced, Function.comp_def]
  calc translate id BuildError.unplaced b.build
    _ = translate id BuildError.unplaced b.mergedTypes >>= fun types =>
          .ok ⟨(b.query.map Prod.fst).or (defaultQuery types), types.map fun t => t.2.finish⟩ :=
      translate_bind _ fun _ => rfl
    _ = b.unplaced.build := by
      rw [hmerged, ← hquery]
      rfl

theorem loadText_eq {b : Builder} {file : Option String} {text : String} {ds : List Definition}
    (h : Schema.definitions? text = some ds) :
    b.loadText file text = (b.sourceName file).2.addAll (b.sourceName file).1 ds := by
  simp only [loadText, h]

/-- Loading a source that can be read is taking in its definitions. -/
theorem load_eq {b : Builder} {s : Source} {ds : List Definition}
    (h : s.definitions? = some ds) :
    ∃ file, b.load s = (b.sourceName file).2.addAll (b.sourceName file).1 ds := by
  cases s with
  | text file text => exact ⟨file, loadText_eq h⟩
  | file path found =>
    rcases found with cause | tree
    · contradiction
    · cases tree with
      | directory entries => contradiction
      | file content =>
        obtain ⟨text, hread, htext⟩ := Option.bind_eq_some_iff.mp h
        have hread : String.fromUTF8? content = some text := hread
        refine ⟨some path, ?_⟩
        simp only [load, loadFile, hread]
        exact loadText_eq htext

theorem load_unplaced {b : Builder} {s : Source} {ds : List Definition}
    (h : s.definitions? = some ds) :
    translate unplaced BuildError.unplaced (b.load s) =
      b.unplaced.addEach (ds.map fun d => ("", d.unplaced)) := by
  obtain ⟨file, hload⟩ := load_eq (b := b) h
  have hname : (b.sourceName file).2.unplaced = b.unplaced := by
    cases file <;> rfl
  calc translate unplaced BuildError.unplaced (b.load s)
    _ = (ds.map Definition.unplaced).foldlM (add "") (b.sourceName file).2.unplaced := by
      rw [hload]
      exact translate_foldlM (fun d _ b => add_unplaced _ b d) _
    _ = b.unplaced.addEach (ds.map fun d => ("", d.unplaced)) := by
      rw [hname, addEach, List.foldlM_map, List.foldlM_map]

theorem loadAll_unplaced {b : Builder} {sources : List Source} {ds : List Definition}
    (h : Source.allDefinitions? sources = some ds) :
    translate unplaced BuildError.unplaced (b.loadAll sources) =
      b.unplaced.addEach (ds.map fun d => ("", d.unplaced)) := by
  induction sources generalizing b ds with
  | nil =>
    obtain rfl : [] = ds := by simpa [Source.allDefinitions?] using h
    rfl
  | cons s sources ih =>
    obtain ⟨first, rest, hfirst, hrest, rfl⟩ := Source.allDefinitions?_cons.mp h
    have hsources (c : Builder) : translate unplaced BuildError.unplaced (c.loadAll sources) =
        c.unplaced.addEach (rest.map fun d => ("", d.unplaced)) := ih hrest
    calc translate unplaced BuildError.unplaced (b.loadAll (s :: sources))
      _ = translate unplaced BuildError.unplaced (b.load s) >>= fun c =>
            addEach c (rest.map fun d => ("", d.unplaced)) := by
        rw [loadAll, List.foldlM_cons]
        exact translate_bind (fun c => addEach c (rest.map fun d => ("", d.unplaced))) hsources
      _ = b.unplaced.addEach ((first ++ rest).map fun d => ("", d.unplaced)) := by
        rw [load_unplaced hfirst, List.map_append, addEach, addEach, List.foldlM_append]
        rfl

theorem exists_definitions_of_load {b c : Builder} {s : Source} (h : b.load s = .ok c) :
    ∃ ds, s.definitions? = some ds := by
  have htext (file : Option String) (text : String) (h : b.loadText file text = .ok c) :
      ∃ ds, Schema.definitions? text = some ds := by
    unfold loadText at h
    simp only at h
    split at h
    · contradiction
    · next ds hds => exact ⟨ds, hds⟩
  cases s with
  | text file text => exact htext file text h
  | file path found =>
    simp only [load] at h
    unfold loadFile at h
    split at h
    · next content =>
      split at h
      · next text hread =>
        obtain ⟨ds, hds⟩ := htext _ text h
        exact ⟨ds, Option.bind_eq_some_iff.mpr ⟨text, hread, hds⟩⟩
      · contradiction
    · contradiction

/-- Sources are loaded only if all of them can be read and parsed. -/
theorem exists_definitions_of_loadAll {b c : Builder} {sources : List Source}
    (h : b.loadAll sources = .ok c) : ∃ ds, Source.allDefinitions? sources = some ds := by
  induction sources generalizing b with
  | nil => exact ⟨[], rfl⟩
  | cons s sources ih =>
    rw [loadAll, List.foldlM_cons, bind_eq_ok] at h
    obtain ⟨b', hfirst, hrest⟩ := h
    obtain ⟨first, hfirst⟩ := exists_definitions_of_load hfirst
    obtain ⟨rest, hrest⟩ := ih hrest
    exact ⟨first ++ rest, Source.allDefinitions?_cons.mpr ⟨first, rest, hfirst, hrest, rfl⟩⟩

end Builder

/-- What sources build is what their definitions build, but for the places in errors. -/
theorem ofSources_unplaced {sources : List Source} {ds : List Definition}
    (h : Source.allDefinitions? sources = some ds) :
    translate id BuildError.unplaced (ofSources sources) =
      ofPlaced (ds.map fun d => ("", d.unplaced)) := by
  calc translate id BuildError.unplaced (ofSources sources)
    _ = translate Builder.unplaced BuildError.unplaced (Builder.initial.loadAll sources) >>=
          Builder.build := translate_bind _ Builder.build_unplaced
    _ = ofPlaced (ds.map fun d => ("", d.unplaced)) := by
      rw [Builder.loadAll_unplaced h]
      rfl

/-- The places of definitions decide nothing but the places in errors. -/
theorem ofPlaced_unplaced (ds : List (String × Definition)) :
    translate id BuildError.unplaced (ofPlaced ds) =
      ofPlaced (ds.map fun d => ("", d.2.unplaced)) := by
  calc translate id BuildError.unplaced (ofPlaced ds)
    _ = translate Builder.unplaced BuildError.unplaced (Builder.initial.addEach ds) >>=
          Builder.build := translate_bind _ Builder.build_unplaced
    _ = ofPlaced (ds.map fun d => ("", d.2.unplaced)) := by
      rw [Builder.addEach_unplaced]
      rfl

theorem ofSources_eq_ok_iff {sources : List Source} {ds : List Definition} {s : Schema}
    (h : Source.allDefinitions? sources = some ds) :
    ofSources sources = .ok s ↔ ofPlaced (ds.map (Prod.mk "")) = .ok s := by
  rw [← translate_id_eq_ok (g := BuildError.unplaced), ofSources_unplaced h,
    ← translate_id_eq_ok (g := BuildError.unplaced) (x := ofPlaced (ds.map (Prod.mk ""))),
    ofPlaced_unplaced, List.map_map]
  rfl

/-- Sources build a schema only if all of them can be read and parsed. -/
theorem exists_definitions_of_ofSources {sources : List Source} {s : Schema}
    (h : ofSources sources = .ok s) : ∃ ds, Source.allDefinitions? sources = some ds := by
  obtain ⟨b, hload, -⟩ := bind_eq_ok.mp h
  exact Builder.exists_definitions_of_loadAll hload

end QueryCraft.Schema
