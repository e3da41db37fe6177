import QueryCraft.Proofs.Schema.Merging
import QueryCraft.Proofs.Schema.Ordering

/-!
Which definitions build a schema. Some checks are made when a definition is taken in and others when
the extensions are merged; together they accept the definitions that are consistent and no others.
-/

namespace QueryCraft.Schema

def Definition.type? : Definition → Option TypeDefinition
  | .type d => some d
  | _ => none

/-- The query type that a schema block chooses. -/
def Definition.query? : Definition → Option String
  | .schema _ query => query
  | _ => none

def definedTypes (ds : List Definition) : List TypeDefinition :=
  ds.filterMap Definition.type?

def queryTypes (ds : List Definition) : List String :=
  ds.filterMap Definition.query?

def typeExtensions (ds : List Definition) : List TypeExtension :=
  ds.filterMap Definition.extension?

/-- Definitions that make a schema together. -/
structure Consistent (ds : List Definition) : Prop where
  names : ((definedTypes ds).map TypeDefinition.name).Nodup
  notBuiltin : ∀ d ∈ definedTypes ds, d.name ∉ builtinNames
  notReserved : ∀ d ∈ definedTypes ds, ¬ ['_', '_'] <+: d.name.toList
  members : ∀ d ∈ definedTypes ds, (d.body.memberNames ++
    ((typeExtensions ds).filter (·.name = d.name)).flatMap (·.body.memberNames)).Nodup
  query : (queryTypes ds).length ≤ 1
  extensions : ∀ e ∈ typeExtensions ds,
    ∃ d ∈ definedTypes ds, d.name = e.name ∧ d.body.kind = e.body.kind

/-- The query type of a schema with these definitions. -/
def chosenQuery (ds : List Definition) : Option String :=
  (queryTypes ds).head?.or <|
    if ∃ d ∈ definedTypes ds, d.name = "Query" ∧ d.body.kind = .object then some "Query" else none

/-- What is checked while definitions are taken in. -/
structure Loadable (ds : List Definition) : Prop where
  types : Declarable (definedTypes ds)
  notReserved : ∀ d ∈ definedTypes ds, isReserved d.name = false
  query : (queryTypes ds).length ≤ 1

@[simp] theorem definedTypes_append (ds es : List Definition) :
    definedTypes (ds ++ es) = definedTypes ds ++ definedTypes es :=
  List.filterMap_append

theorem definedTypes_append_of_none {d : Definition} (h : d.type? = none) (ds : List Definition) :
    definedTypes (ds ++ [d]) = definedTypes ds := by
  rw [definedTypes_append, definedTypes, definedTypes, List.filterMap_cons_none h,
    List.filterMap_nil, List.append_nil]

@[simp] theorem queryTypes_append (ds es : List Definition) :
    queryTypes (ds ++ es) = queryTypes ds ++ queryTypes es :=
  List.filterMap_append

theorem queryTypes_append_of_none {d : Definition} (h : d.query? = none) (ds : List Definition) :
    queryTypes (ds ++ [d]) = queryTypes ds := by
  rw [queryTypes_append, queryTypes, queryTypes, List.filterMap_cons_none h, List.filterMap_nil,
    List.append_nil]

@[simp] theorem typeExtensions_append (ds es : List Definition) :
    typeExtensions (ds ++ es) = typeExtensions ds ++ typeExtensions es :=
  List.filterMap_append

theorem typeExtensions_append_of_none {d : Definition} (h : d.extension? = none)
    (ds : List Definition) : typeExtensions (ds ++ [d]) = typeExtensions ds := by
  rw [typeExtensions_append, typeExtensions, typeExtensions, List.filterMap_cons_none h,
    List.filterMap_nil, List.append_nil]

namespace Loadable

variable {ds es : List Definition}

theorem of_append (h : Loadable (ds ++ es)) : Loadable ds := by
  obtain ⟨⟨hnames, hbuiltin, hmembers⟩, hreserved, hquery⟩ := h
  simp only [definedTypes_append, queryTypes_append, List.map_append, List.nodup_append,
    List.forall_mem_append, List.length_append] at *
  exact ⟨⟨hnames.1, hbuiltin.1, hmembers.1⟩, hreserved.1, by omega⟩

theorem append_type_iff {d : TypeDefinition} :
    Loadable (ds ++ [.type d]) ↔ Loadable ds ∧ d.body.memberNames.Nodup ∧
      isReserved d.name = false ∧ d.name ∉ builtinNames ++ (definedTypes ds).map (·.name) := by
  have htypes : definedTypes (ds ++ [.type d]) = definedTypes ds ++ [d] := definedTypes_append _ _
  have hqueries : queryTypes (ds ++ [.type d]) = queryTypes ds := queryTypes_append_of_none rfl ds
  constructor
  · intro h
    have hd : d ∈ definedTypes (ds ++ [.type d]) := by simp [htypes]
    refine ⟨h.of_append, h.types.members d hd, h.notReserved d hd, ?_⟩
    have hnames := h.types.names
    rw [htypes, List.map_append, List.nodup_append'] at hnames
    rw [List.mem_append, not_or]
    exact ⟨h.types.notBuiltin d hd, fun hbefore => hnames.2.2 hbefore (by simp)⟩
  · rintro ⟨⟨⟨hnames, hbuiltin, hmembers⟩, hreserved, hquery⟩, hd, hdreserved, hfree⟩
    rw [List.mem_append, not_or] at hfree
    refine ⟨⟨?_, ?_, ?_⟩, ?_, hqueries ▸ hquery⟩
    · rw [htypes, List.map_append, List.nodup_append']
      exact ⟨hnames, by simp, by simpa using hfree.2⟩
    all_goals
      rw [htypes, List.forall_mem_append, List.forall_mem_singleton]
    · exact ⟨hbuiltin, hfree.1⟩
    · exact ⟨hmembers, hd⟩
    · exact ⟨hreserved, hdreserved⟩

theorem append_query_iff {position : Position} {type : String} :
    Loadable (ds ++ [.schema position (some type)]) ↔ Loadable ds ∧ queryTypes ds = [] := by
  have htypes : definedTypes (ds ++ [.schema position (some type)]) = definedTypes ds :=
    definedTypes_append_of_none rfl ds
  have hqueries : queryTypes (ds ++ [.schema position (some type)]) = queryTypes ds ++ [type] :=
    queryTypes_append _ _
  constructor
  · intro h
    have hquery := h.query
    rw [hqueries, List.length_append, List.length_singleton] at hquery
    exact ⟨h.of_append, List.length_eq_zero_iff.mp (by omega)⟩
  · rintro ⟨h, hnone⟩
    exact ⟨htypes ▸ h.types, htypes ▸ h.notReserved, by simp [hqueries, hnone]⟩

/-- What is neither a type nor a choice of the query type can always be taken in. -/
theorem append_of_none {d : Definition} (h : Loadable ds) (htype : d.type? = none)
    (hquery : d.query? = none) : Loadable (ds ++ [d]) := by
  have htypes : definedTypes (ds ++ [d]) = definedTypes ds := definedTypes_append_of_none htype ds
  have hqueries : queryTypes (ds ++ [d]) = queryTypes ds := queryTypes_append_of_none hquery ds
  exact ⟨htypes ▸ h.types, htypes ▸ h.notReserved, hqueries ▸ h.query⟩

end Loadable

namespace Builder

variable {b c : Builder} {file : String} {ds : List Definition}

/-- What a builder holds when it has taken in definitions. -/
structure Holds (b : Builder) (ds : List Definition) : Prop where
  loadable : Loadable ds
  locations : Keyed.names b.locations = builtinNames ++ (definedTypes ds).map TypeDefinition.name
  types : b.types = entries (definedTypes ds)
  extensions : b.extensions.map Prod.snd = typeExtensions ds
  query : queryTypes ds = (b.query.map Prod.fst).toList

namespace Holds

theorem initial : Builder.initial.Holds [] where
  loadable := ⟨⟨List.nodup_nil, nofun, nofun⟩, nofun, by simp [queryTypes]⟩
  locations := rfl
  types := by simp [entries, definedTypes]
  extensions := rfl
  query := rfl

theorem names_types (h : b.Holds ds) :
    Keyed.names b.types = builtinNames ++ (definedTypes ds).map TypeDefinition.name := by
  rw [h.types, names_entries]

theorem append_of_none {d : Definition} (h : b.Holds ds) (htype : d.type? = none)
    (hquery : d.query? = none) (hextension : d.extension? = none) : b.Holds (ds ++ [d]) where
  loadable := h.loadable.append_of_none htype hquery
  locations := definedTypes_append_of_none htype ds ▸ h.locations
  types := definedTypes_append_of_none htype ds ▸ h.types
  extensions := typeExtensions_append_of_none hextension ds ▸ h.extensions
  query := queryTypes_append_of_none hquery ds ▸ h.query

/-- A definition that is taken in passes the checks, and the builder holds it then. -/
theorem add {d : Definition} (h : b.Holds ds) (hadd : b.add file d = .ok c) :
    c.Holds (ds ++ [d]) := by
  cases d with
  | schema position query =>
    cases query with
    | none =>
      obtain rfl := Except.ok.inj hadd
      exact h.append_of_none rfl rfl rfl
    | some type =>
      obtain ⟨hnone, rfl⟩ := add_query_eq_ok.mp hadd
      have hquery : queryTypes ds = [] := by
        rw [h.query, hnone]
        rfl
      have htypes : definedTypes (ds ++ [.schema position (some type)]) = definedTypes ds :=
        definedTypes_append_of_none rfl ds
      have hextensions : typeExtensions (ds ++ [.schema position (some type)]) =
          typeExtensions ds := typeExtensions_append_of_none rfl ds
      refine ⟨Loadable.append_query_iff.mpr ⟨h.loadable, hquery⟩, htypes ▸ h.locations,
        htypes ▸ h.types, hextensions ▸ h.extensions, ?_⟩
      rw [queryTypes_append, hquery]
      rfl
  | type d =>
    obtain ⟨hmembers, hreserved, hfree, rfl⟩ := add_type_eq_ok.mp hadd
    have hfreeType : d.name ∉ Keyed.names b.types := by
      rwa [h.names_types, ← h.locations]
    have hextensions : typeExtensions (ds ++ [.type d]) = typeExtensions ds :=
      typeExtensions_append_of_none rfl ds
    have hqueries : queryTypes (ds ++ [.type d]) = queryTypes ds :=
      queryTypes_append_of_none rfl ds
    refine ⟨Loadable.append_type_iff.mpr ⟨h.loadable, hmembers, hreserved, h.locations ▸ hfree⟩,
      ?_, ?_, hextensions ▸ h.extensions, hqueries ▸ h.query⟩
    · rw [definedTypes_append, List.map_append, ← List.append_assoc, ← h.locations]
      simp only [Keyed.insert_of_not_mem hfree, Keyed.names, List.map_append]
      rfl
    · rw [definedTypes_append, entries, List.map_append, ← List.append_assoc, ← entries, ← h.types]
      simp only [Keyed.insert_of_not_mem hfreeType]
      rfl
  | extension e =>
    obtain rfl := Except.ok.inj hadd
    have htypes : definedTypes (ds ++ [.extension e]) = definedTypes ds :=
      definedTypes_append_of_none rfl ds
    have hqueries : queryTypes (ds ++ [.extension e]) = queryTypes ds :=
      queryTypes_append_of_none rfl ds
    refine ⟨h.loadable.append_of_none rfl rfl, htypes ▸ h.locations, htypes ▸ h.types, ?_,
      hqueries ▸ h.query⟩
    rw [typeExtensions_append, ← h.extensions, List.map_append]
    rfl
  | directive =>
    obtain rfl := Except.ok.inj hadd
    exact h.append_of_none rfl rfl rfl

/-- A definition that passes the checks is taken in. -/
theorem exists_add {d : Definition} (h : b.Holds ds) (hd : Loadable (ds ++ [d])) :
    ∃ c, b.add file d = .ok c := by
  cases d with
  | schema position query =>
    cases query with
    | none => exact ⟨b, rfl⟩
    | some type =>
      obtain ⟨-, hnone⟩ := Loadable.append_query_iff.mp hd
      have hquery := h.query
      rw [hnone] at hquery
      refine ⟨_, add_query_eq_ok.mpr ⟨?_, rfl⟩⟩
      cases hchosen : b.query with
      | none => rfl
      | some q => simp [hchosen] at hquery
  | type d =>
    obtain ⟨-, hmembers, hreserved, hfree⟩ := Loadable.append_type_iff.mp hd
    exact ⟨_, add_type_eq_ok.mpr ⟨hmembers, hreserved, h.locations ▸ hfree, rfl⟩⟩
  | extension e => exact ⟨_, rfl⟩
  | directive => exact ⟨b, rfl⟩

/-- The builder that has taken in definitions one after the other holds all of them. -/
theorem addEach {es : List (String × Definition)} (h : b.Holds ds) (hadd : b.addEach es = .ok c) :
    c.Holds (ds ++ es.map Prod.snd) := by
  induction es generalizing b ds with
  | nil =>
    obtain rfl := Except.ok.inj hadd
    simpa using h
  | cons d es ih =>
    rw [Builder.addEach, List.foldlM_cons, bind_eq_ok] at hadd
    obtain ⟨b', hfirst, hrest⟩ := hadd
    simpa using ih (h.add hfirst) hrest

theorem exists_addEach {es : List (String × Definition)} (h : b.Holds ds)
    (hes : Loadable (ds ++ es.map Prod.snd)) : ∃ c, b.addEach es = .ok c := by
  induction es generalizing b ds with
  | nil => exact ⟨b, rfl⟩
  | cons d es ih =>
    rw [List.map_cons, List.append_cons] at hes
    obtain ⟨b', hfirst⟩ : ∃ c, b.add d.1 d.2 = .ok c := h.exists_add hes.of_append
    obtain ⟨c, hrest⟩ := ih (h.add hfirst) hes
    exact ⟨c, by rw [Builder.addEach, List.foldlM_cons, hfirst]; exact hrest⟩

end Holds

end Builder

theorem Declarable.extendedWith {defs : List TypeDefinition} (h : Declarable defs)
    (es : List TypeExtension)
    (hmembers : ∀ d ∈ defs, (d.extendedWith es).body.memberNames.Nodup) :
    Declarable (defs.map (·.extendedWith es)) where
  names := by simpa [Function.comp_def] using h.names
  notBuiltin := by simpa using h.notBuiltin
  members := by simpa using hmembers

theorem Declarable.defaultQuery_entries {defs : List TypeDefinition} (h : Declarable defs) :
    defaultQuery (entries defs) =
      if ∃ d ∈ defs, d.name = "Query" ∧ d.body.kind = .object then some "Query" else none := by
  by_cases hdefined : ∃ d ∈ defs, d.name = "Query"
  · obtain ⟨d, hd, hname⟩ := hdefined
    have hlookup : (entries defs).lookup "Query" = some d.draft := by
      refine Keyed.lookup_of_mem h.nodup_names_entries (List.mem_append_right _ ?_)
      exact List.mem_map.mpr ⟨d, hd, by rw [TypeDefinition.entry, hname]⟩
    have hobject : (∃ c ∈ defs, c.name = "Query" ∧ c.body.kind = .object) ↔
        d.body.kind = .object := by
      constructor
      · rintro ⟨c, hc, hcname, hkind⟩
        obtain rfl := h.eq_of_name_eq hc hd (hcname.trans hname.symm)
        exact hkind
      · exact fun hkind => ⟨d, hd, hname, hkind⟩
    rw [defaultQuery, hlookup, if_congr hobject rfl rfl]
    cases hbody : d.body <;> simp [TypeDefinition.draft, hbody, Body.draft, Body.kind]
  · have hlookup : (entries defs).lookup "Query" = none := by
      rw [Keyed.lookup_eq_none_iff, names_entries, List.mem_append, List.mem_map]
      rintro (hbuiltin | ⟨d, hd, hname⟩)
      · exact absurd hbuiltin (by decide)
      · exact hdefined ⟨d, hd, hname⟩
    rw [defaultQuery, hlookup, if_neg]
    rintro ⟨d, hd, hname, -⟩
    exact hdefined ⟨d, hd, hname⟩

theorem isReserved_eq_false_iff {name : String} :
    isReserved name = false ↔ ¬ ['_', '_'] <+: name.toList := by
  rw [isReserved, ← Bool.not_eq_true, List.isPrefixOf_iff_prefix]

/-- Definitions are consistent if those with all their extensions are. -/
theorem consistent_iff_extended {ds : List Definition} :
    Consistent ds ↔ ((definedTypes ds).map TypeDefinition.name).Nodup ∧
      (∀ d ∈ definedTypes ds, d.name ∉ builtinNames) ∧
      (∀ d ∈ definedTypes ds, ¬ ['_', '_'] <+: d.name.toList) ∧
      (queryTypes ds).length ≤ 1 ∧
      (∀ e ∈ typeExtensions ds,
        ∃ d ∈ definedTypes ds, d.name = e.name ∧ d.body.kind = e.body.kind) ∧
      ∀ d ∈ definedTypes ds, (d.extendedWith (typeExtensions ds)).body.memberNames.Nodup := by
  have hmembers (hnames : ((definedTypes ds).map TypeDefinition.name).Nodup)
      (hextensions : ∀ e ∈ typeExtensions ds,
        ∃ d ∈ definedTypes ds, d.name = e.name ∧ d.body.kind = e.body.kind)
      {d : TypeDefinition} (hd : d ∈ definedTypes ds) :
      (d.extendedWith (typeExtensions ds)).body.memberNames = d.body.memberNames ++
        ((typeExtensions ds).filter (·.name = d.name)).flatMap (·.body.memberNames) := by
    refine TypeDefinition.memberNames_extendedWith fun e he hname => ?_
    obtain ⟨c, hc, hcname, hkind⟩ := hextensions e he
    obtain rfl := List.inj_on_of_nodup_map hnames hc hd (hcname.trans hname)
    exact hkind
  constructor
  · rintro ⟨hnames, hbuiltin, hreserved, hall, hquery, hextensions⟩
    exact ⟨hnames, hbuiltin, hreserved, hquery, hextensions,
      fun d hd => hmembers hnames hextensions hd ▸ hall d hd⟩
  · rintro ⟨hnames, hbuiltin, hreserved, hquery, hextensions, hall⟩
    exact ⟨hnames, hbuiltin, hreserved, fun d hd => hmembers hnames hextensions hd ▸ hall d hd,
      hquery, hextensions⟩

/-- Consistent definitions are those that pass the checks while they are taken in and while the
extensions are merged. -/
theorem consistent_iff {ds : List Definition} :
    Consistent ds ↔ Loadable ds ∧
      (∀ e ∈ typeExtensions ds,
        ∃ d ∈ definedTypes ds, d.name = e.name ∧ d.body.kind = e.body.kind) ∧
      ∀ d ∈ definedTypes ds, (d.extendedWith (typeExtensions ds)).body.memberNames.Nodup := by
  rw [consistent_iff_extended]
  constructor
  · rintro ⟨hnames, hbuiltin, hreserved, hquery, hextensions, hall⟩
    refine ⟨⟨⟨hnames, hbuiltin, fun d hd => ?_⟩, ?_, hquery⟩, hextensions, hall⟩
    · exact (hall d hd).sublist (TypeDefinition.memberNames_prefix_extendedWith _).sublist
    · exact fun d hd => isReserved_eq_false_iff.mpr (hreserved d hd)
  · rintro ⟨⟨⟨hnames, hbuiltin, -⟩, hreserved, hquery⟩, hextensions, hall⟩
    exact ⟨hnames, hbuiltin, fun d hd => isReserved_eq_false_iff.mp (hreserved d hd), hquery,
      hextensions, hall⟩

/-- The types that definitions make, behind the types that every schema has. -/
def describedTypes (ds : List Definition) : List NamedType :=
  builtinTypes ++ (definedTypes ds).map fun d => (d.extendedWith (typeExtensions ds)).draft.finish

theorem finish_entries (defs : List TypeDefinition) :
    (entries defs).map (fun t => t.2.finish) = builtinTypes ++ defs.map (·.draft.finish) := by
  rw [entries, List.map_append, List.map_map]
  rfl

/-- The builder that holds definitions builds the schema that they describe, if they are
consistent. -/
theorem Builder.Holds.build_eq_ok {b : Builder} {ds : List Definition} {s : Schema}
    (h : b.Holds ds) :
    b.build = .ok s ↔ Consistent ds ∧ s = ⟨chosenQuery ds, describedTypes ds⟩ := by
  have hdefs := h.loadable.types
  have hmerged {types : Keyed.Map TypeDraft} : b.mergedTypes = .ok types ↔
      Consistent ds ∧ types = entries ((definedTypes ds).map (·.extendedWith (typeExtensions ds))) := by
    rw [Builder.mergedTypes, h.types, hdefs.mergeExtensions_eq_ok, h.extensions, consistent_iff,
      ← and_assoc, and_iff_right h.loadable]
  have hquery : b.query.map Prod.fst = (queryTypes ds).head? := by
    rw [h.query]
    cases b.query <;> rfl
  have hschema (hconsistent : Consistent ds) :
      (⟨(b.query.map Prod.fst).or (defaultQuery
          (entries ((definedTypes ds).map (·.extendedWith (typeExtensions ds))))),
        (entries ((definedTypes ds).map (·.extendedWith (typeExtensions ds)))).map fun t =>
          t.2.finish⟩ : Schema) = ⟨chosenQuery ds, describedTypes ds⟩ := by
    have hextended := hdefs.extendedWith _ (consistent_iff.mp hconsistent).2.2
    rw [hquery, hextended.defaultQuery_entries, finish_entries, List.map_map, describedTypes]
    simp [chosenQuery, Function.comp_def]
  rw [Builder.build, bind_eq_ok]
  constructor
  · rintro ⟨types, htypes, hs⟩
    obtain ⟨hconsistent, rfl⟩ := hmerged.mp htypes
    obtain rfl := Except.ok.inj hs
    exact ⟨hconsistent, hschema hconsistent⟩
  · rintro ⟨hconsistent, rfl⟩
    exact ⟨_, hmerged.mpr ⟨hconsistent, rfl⟩, congrArg Except.ok (hschema hconsistent)⟩

theorem ofPlaced_eq_ok {ds : List (String × Definition)} {s : Schema} :
    ofPlaced ds = .ok s ↔ Consistent (ds.map Prod.snd) ∧
      s = ⟨chosenQuery (ds.map Prod.snd), describedTypes (ds.map Prod.snd)⟩ := by
  rw [ofPlaced, bind_eq_ok]
  constructor
  · rintro ⟨b, hadd, hbuild⟩
    exact (Builder.Holds.initial.addEach hadd).build_eq_ok.mp hbuild
  · rintro ⟨hconsistent, rfl⟩
    obtain ⟨b, hadd⟩ := Builder.Holds.initial.exists_addEach (consistent_iff.mp hconsistent).1
    exact ⟨b, hadd, (Builder.Holds.initial.addEach hadd).build_eq_ok.mpr ⟨hconsistent, rfl⟩⟩

/-- Sources build a schema exactly if their definitions are consistent. It has the types that they
define, each with its extensions, and the query type that they choose. -/
theorem ofSources_eq_ok_iff_consistent {sources : List Source} {s : Schema} :
    ofSources sources = .ok s ↔ ∃ ds, Source.allDefinitions? sources = some ds ∧ Consistent ds ∧
      s.types = builtinTypes ++
        (definedTypes ds).map (fun d => (d.extendedWith (typeExtensions ds)).draft.finish) ∧
      s.query = chosenQuery ds := by
  have hplaced (ds : List Definition) : (ds.map (Prod.mk "")).map Prod.snd = ds :=
    List.map_map.trans ds.map_id
  constructor
  · intro h
    obtain ⟨ds, hds⟩ := exists_definitions_of_ofSources h
    rw [ofSources_eq_ok_iff hds, ofPlaced_eq_ok, hplaced] at h
    obtain ⟨hconsistent, rfl⟩ := h
    exact ⟨ds, hds, hconsistent, rfl, rfl⟩
  · rintro ⟨ds, hds, hconsistent, htypes, hquery⟩
    rw [ofSources_eq_ok_iff hds, ofPlaced_eq_ok, hplaced]
    exact ⟨hconsistent, by rw [describedTypes, ← htypes, ← hquery]⟩

end QueryCraft.Schema
