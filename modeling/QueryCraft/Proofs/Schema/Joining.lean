import QueryCraft.Proofs.Schema.Acceptance

/-!
Definitions written whole. A type that is extended and the type written in one definition are both
accepted or both refused, and they are the same type but for what the extensions of an interface
implement.
-/

namespace QueryCraft.Schema

/-- Everything that two bodies of one kind say, together. -/
def Body.append : Body → Body → Body
  | .object interfaces fields, .object moreInterfaces moreFields =>
    .object (interfaces ++ moreInterfaces) (fields ++ moreFields)
  | .interface interfaces fields, .interface moreInterfaces moreFields =>
    .interface (interfaces ++ moreInterfaces) (fields ++ moreFields)
  | .union members, .union more => .union (members ++ more)
  | .enum values, .enum more => .enum (values ++ more)
  | .input fields, .input more => .input (fields ++ more)
  | body, _ => body

/-- The interfaces that an extension names in vain. -/
def Body.lostInterfaces : Body → List String
  | .interface interfaces _ => interfaces
  | _ => []

/-- An interface that implements more. -/
def Body.implementing (more : List String) : Body → Body
  | .interface interfaces fields => .interface (interfaces ++ more) fields
  | body => body

theorem Body.kind_append (b c : Body) : (b.append c).kind = b.kind := by
  cases b <;> cases c <;> rfl

theorem Body.append_eq {b c : Body} (h : b.kind = c.kind) :
    b.append c = (b.extend c).implementing c.lostInterfaces := by
  cases b <;> cases c <;> first | rfl | contradiction

theorem Body.implementing_nil (b : Body) : b.implementing [] = b := by
  cases b <;> simp [implementing]

theorem Body.implementing_implementing (xs ys : List String) (b : Body) :
    (b.implementing xs).implementing ys = b.implementing (xs ++ ys) := by
  cases b <;> simp [implementing]

theorem Body.extend_implementing (xs : List String) (b c : Body) :
    (b.implementing xs).extend c = (b.extend c).implementing xs := by
  cases b <;> cases c <;> rfl

theorem Body.kind_implementing (xs : List String) (b : Body) :
    (b.implementing xs).kind = b.kind := by
  cases b <;> rfl

theorem Body.memberNames_implementing (xs : List String) (b : Body) :
    (b.implementing xs).memberNames = b.memberNames := by
  cases b <;> rfl

namespace TypeDefinition

variable {d : TypeDefinition} {e : TypeExtension}

/-- The definition with the interfaces that its extensions name in vain. -/
def implementing (d : TypeDefinition) (more : List String) : TypeDefinition :=
  { d with body := d.body.implementing more }

/-- One definition that says what a definition and its extensions say. -/
def joinedWith (d : TypeDefinition) (es : List TypeExtension) : TypeDefinition :=
  { d with body := es.foldl (fun body e => body.append e.body) d.body }

theorem isExtendedBy_extendedBy {f : TypeExtension} :
    (d.extendedBy e).IsExtendedBy f ↔ d.IsExtendedBy f := by
  simp [IsExtendedBy]

@[simp] theorem name_implementing (xs : List String) : (d.implementing xs).name = d.name := rfl

@[simp] theorem kind_implementing (xs : List String) :
    (d.implementing xs).body.kind = d.body.kind :=
  d.body.kind_implementing xs

@[simp] theorem memberNames_implementing (xs : List String) :
    (d.implementing xs).body.memberNames = d.body.memberNames :=
  d.body.memberNames_implementing xs

/-- Only its own extensions decide what becomes of a definition. -/
theorem extendedWith_filter {p : TypeExtension → Bool} {es : List TypeExtension}
    (h : ∀ e ∈ es, d.IsExtendedBy e → p e = true) :
    d.extendedWith (es.filter p) = d.extendedWith es := by
  induction es generalizing d with
  | nil => rfl
  | cons e es ih =>
    rw [List.forall_mem_cons] at h
    by_cases hp : p e = true
    · rw [List.filter_cons_of_pos hp, extendedWith_cons, extendedWith_cons]
      exact ih fun f hf hd => h.2 f hf (isExtendedBy_extendedBy.mp hd)
    · rw [List.filter_cons_of_neg hp, extendedWith_cons, extendedBy_of_not fun hd => hp (h.1 hd)]
      exact ih h.2

theorem extendedWith_of_forall_not {es : List TypeExtension}
    (h : ∀ e ∈ es, ¬ d.IsExtendedBy e) : d.extendedWith es = d := by
  rw [← extendedWith_filter (p := fun _ => false) fun e he hd => absurd hd (h e he),
    List.filter_false, extendedWith_nil]

theorem extendedWith_implementing (xs : List String) (es : List TypeExtension) :
    (d.implementing xs).extendedWith es = (d.extendedWith es).implementing xs := by
  induction es generalizing d with
  | nil => rfl
  | cons e es ih =>
    have hstep : (d.implementing xs).extendedBy e = (d.extendedBy e).implementing xs := by
      by_cases hname : e.name = d.name
      · have hname' : e.name = (d.implementing xs).name := hname
        rw [extendedBy_of_eq hname, extendedBy_of_eq hname']
        exact congrArg (TypeDefinition.mk d.position d.description d.name)
          (d.body.extend_implementing xs e.body)
      · have hname' : e.name ≠ (d.implementing xs).name := hname
        rw [extendedBy_of_ne hname, extendedBy_of_ne hname']
    rw [extendedWith_cons, hstep, ih, extendedWith_cons]

theorem implementing_implementing (xs ys : List String) :
    (d.implementing xs).implementing ys = d.implementing (xs ++ ys) :=
  congrArg (TypeDefinition.mk d.position d.description d.name)
    (d.body.implementing_implementing xs ys)

theorem implementing_nil : d.implementing [] = d :=
  congrArg (TypeDefinition.mk d.position d.description d.name) d.body.implementing_nil

theorem kind_joinedWith (d : TypeDefinition) (es : List TypeExtension) :
    (d.joinedWith es).body.kind = d.body.kind := by
  induction es generalizing d with
  | nil => rfl
  | cons e es ih => exact (ih { d with body := d.body.append e.body }).trans (d.body.kind_append _)

/-- Joining is extending, with the interfaces that extending loses. -/
theorem joinedWith_eq {es : List TypeExtension} (h : ∀ e ∈ es, d.IsExtendedBy e) :
    d.joinedWith es =
      (d.extendedWith es).implementing (es.flatMap (·.body.lostInterfaces)) := by
  induction es generalizing d with
  | nil => exact implementing_nil.symm
  | cons e es ih =>
    rw [List.forall_mem_cons] at h
    obtain ⟨⟨hname, hkind⟩, hrest⟩ := h
    have hfirst : { d with body := d.body.append e.body } =
        (d.extendedBy e).implementing e.body.lostInterfaces := by
      rw [extendedBy_of_eq hname, Body.append_eq hkind]
      rfl
    have hmore : ∀ f ∈ es, ((d.extendedBy e).implementing e.body.lostInterfaces).IsExtendedBy f :=
      fun f hf => by simpa [IsExtendedBy] using hrest f hf
    calc d.joinedWith (e :: es)
      _ = ((d.extendedBy e).implementing e.body.lostInterfaces).joinedWith es := by
        rw [← hfirst]
        rfl
      _ = _ := by
        rw [ih hmore, extendedWith_implementing, implementing_implementing, List.flatMap_cons,
          extendedWith_cons]

end TypeDefinition

/-- The extensions among definitions that are a definition's own. -/
def TypeDefinition.own (d : TypeDefinition) (ds : List Definition) : List TypeExtension :=
  (typeExtensions ds).filter fun e => d.IsExtendedBy e

/-- The interfaces that the extensions of a definition name in vain. -/
def TypeDefinition.lost (d : TypeDefinition) (ds : List Definition) : List String :=
  (d.own ds).flatMap (·.body.lostInterfaces)

/-- Two sequences of definitions, the second with one definition that takes in its extensions. -/
structure Joined (d : TypeDefinition) (front back : List TypeDefinition)
    (ds es : List Definition) : Prop where
  types : definedTypes ds = front ++ d :: back
  joined : definedTypes es = front ++ d.joinedWith (d.own ds) :: back
  extensions : typeExtensions es = (typeExtensions ds).filter fun e => ¬ d.IsExtendedBy e
  queries : queryTypes es = queryTypes ds

namespace Joined

variable {d : TypeDefinition} {front back : List TypeDefinition} {ds es : List Definition}

/-- What becomes of the definitions when one takes in its extensions. -/
def step (d : TypeDefinition) (ds : List Definition) (c : TypeDefinition) : TypeDefinition :=
  if c.name = d.name then c.joinedWith (d.own ds) else c

theorem names_eq (h : Joined d front back ds es) :
    (definedTypes es).map TypeDefinition.name = (definedTypes ds).map TypeDefinition.name := by
  rw [h.types, h.joined, List.map_append, List.map_append]
  rfl

variable (hnames : ((definedTypes ds).map TypeDefinition.name).Nodup)

include hnames in
theorem map_step (h : Joined d front back ds es) :
    definedTypes es = (definedTypes ds).map (step d ds) := by
  rw [h.types, List.map_append, List.map_cons, List.nodup_middle, List.nodup_cons,
    List.mem_append, not_or] at hnames
  have hothers {cs : List TypeDefinition} (hcs : d.name ∉ cs.map TypeDefinition.name) :
      cs.map (step d ds) = cs := by
    refine (List.map_congr_left fun c hc => if_neg fun heq => hcs ?_).trans cs.map_id
    exact heq ▸ List.mem_map.mpr ⟨c, hc, rfl⟩
  rw [h.types, h.joined, List.map_append, List.map_cons, hothers hnames.1.1, hothers hnames.1.2,
    step, if_pos rfl]

include hnames in
/-- A definition that has taken in its extensions is the extended definition, with the interfaces
that extending loses. The other definitions are extended as before. -/
theorem extendedWith_step (h : Joined d front back ds es) {c : TypeDefinition}
    (hc : c ∈ definedTypes ds) :
    (step d ds c).extendedWith (typeExtensions es) =
      (c.extendedWith (typeExtensions ds)).implementing
        (if c.name = d.name then d.lost ds else []) := by
  by_cases hname : c.name = d.name
  · have hd : d ∈ definedTypes ds := by simp [h.types]
    obtain rfl := List.inj_on_of_nodup_map hnames hc hd hname
    have hown : ∀ e ∈ c.own ds, c.IsExtendedBy e := fun e he =>
      of_decide_eq_true (List.mem_filter.mp he).2
    have hjoined : step c ds c = (c.extendedWith (typeExtensions ds)).implementing (c.lost ds) := by
      rw [step, if_pos rfl, TypeDefinition.joinedWith_eq hown, TypeDefinition.own,
        TypeDefinition.extendedWith_filter fun e _ he => decide_eq_true he]
      rfl
    rw [hjoined, if_pos rfl]
    refine TypeDefinition.extendedWith_of_forall_not fun e he hextended => ?_
    rw [h.extensions, List.mem_filter, decide_eq_true_eq] at he
    exact he.2 (by simpa [TypeDefinition.IsExtendedBy] using hextended)
  · rw [step, if_neg hname, if_neg hname, TypeDefinition.implementing_nil, h.extensions]
    refine TypeDefinition.extendedWith_filter fun e _ he => decide_eq_true fun hown => hname ?_
    exact he.1.symm.trans hown.1

theorem name_step (c : TypeDefinition) : (step d ds c).name = c.name := by
  unfold step
  split <;> rfl

theorem kind_step (c : TypeDefinition) : (step d ds c).body.kind = c.body.kind := by
  unfold step
  split
  · exact c.kind_joinedWith (d.own ds)
  · rfl

include hnames in
theorem extensions_iff (h : Joined d front back ds es) :
    (∀ e ∈ typeExtensions es,
        ∃ c ∈ definedTypes es, c.name = e.name ∧ c.body.kind = e.body.kind) ↔
      ∀ e ∈ typeExtensions ds,
        ∃ c ∈ definedTypes ds, c.name = e.name ∧ c.body.kind = e.body.kind := by
  simp only [h.map_step hnames, List.mem_map, exists_exists_and_eq_and, name_step, kind_step]
  rw [h.extensions]
  constructor
  · intro hrest e he
    by_cases hown : d.IsExtendedBy e
    · exact ⟨d, by simp [h.types], hown.1.symm, hown.2⟩
    · exact hrest e (List.mem_filter.mpr ⟨he, decide_eq_true hown⟩)
  · exact fun hall e he => hall e (List.mem_filter.mp he).1

/-- Definitions are consistent exactly if they are when one takes in its extensions. -/
theorem consistent_iff (h : Joined d front back ds es) : Consistent es ↔ Consistent ds := by
  by_cases hnames : ((definedTypes ds).map TypeDefinition.name).Nodup
  · have hmembers : (∀ c ∈ definedTypes es,
        (c.extendedWith (typeExtensions es)).body.memberNames.Nodup) ↔
          ∀ c ∈ definedTypes ds, (c.extendedWith (typeExtensions ds)).body.memberNames.Nodup := by
      rw [h.map_step hnames, List.forall_mem_map]
      refine forall₂_congr fun c hc => ?_
      rw [h.extendedWith_step hnames hc, TypeDefinition.memberNames_implementing]
    rw [consistent_iff_extended, consistent_iff_extended, h.names_eq, h.queries,
      h.extensions_iff hnames, hmembers, h.map_step hnames]
    simp only [List.forall_mem_map, name_step]
  · exact iff_of_false (fun hes => hnames (h.names_eq ▸ hes.names)) fun hds => hnames hds.names

include hnames in
theorem chosenQuery_eq (h : Joined d front back ds es) : chosenQuery es = chosenQuery ds := by
  simp only [chosenQuery, h.queries, h.map_step hnames, List.mem_map, exists_exists_and_eq_and,
    name_step, kind_step]

end Joined

/-- A type that implements more, if it is an interface. -/
def NamedType.implementing (more : List String) (t : NamedType) : NamedType :=
  match t.shape with
  | .interface interfaces fields => { t with shape := .interface (interfaces ++ more) fields }
  | _ => t

/-- A schema in which the interface with a name implements more. -/
def implementing (s : Schema) (name : String) (more : List String) : Schema :=
  { s with types := s.types.map fun t => if t.name = name then t.implementing more else t }

theorem TypeDefinition.finish_implementing (d : TypeDefinition) (more : List String) :
    (d.implementing more).draft.finish = d.draft.finish.implementing more := by
  obtain ⟨position, description, name, body⟩ := d
  cases body <;> rfl

theorem TypeDefinition.name_finish (d : TypeDefinition) : d.draft.finish.name = d.name := rfl

theorem TypeDefinition.kind_finish (d : TypeDefinition) :
    d.draft.finish.shape.kind = d.body.kind := by
  obtain ⟨position, description, name, body⟩ := d
  cases body <;> rfl

theorem NamedType.eq_nil_of_implementing_eq {t : NamedType} {more : List String}
    (hkind : t.shape.kind = .interface) (h : t.implementing more = t) : more = [] := by
  obtain ⟨name, description, shape⟩ := t
  cases shape with
  | interface interfaces fields => simpa [implementing] using h
  | builtin b | scalar | object interfaces fields | union members | enum values | input fields =>
    contradiction

theorem NamedType.implementing_nil (t : NamedType) : t.implementing [] = t := by
  obtain ⟨name, description, shape⟩ := t
  cases shape <;> simp [implementing]

namespace Joined

variable {d : TypeDefinition} {front back : List TypeDefinition} {ds es : List Definition}

theorem describedTypes_eq (h : Joined d front back ds es) (hds : Consistent ds) :
    describedTypes es = (describedTypes ds).map fun t =>
      if t.name = d.name then t.implementing (d.lost ds) else t := by
  have hd : d ∈ definedTypes ds := by simp [h.types]
  rw [describedTypes, describedTypes, List.map_append, h.map_step hds.names, List.map_map,
    List.map_map]
  congr 1
  · refine ((List.map_congr_left fun t ht => if_neg fun heq => ?_).trans (List.map_id _)).symm
    obtain ⟨b, hb, rfl⟩ := List.mem_map.mp ht
    exact hds.notBuiltin d hd (heq ▸ List.mem_map.mpr ⟨b, hb, rfl⟩)
  · refine List.map_congr_left fun c hc => ?_
    rw [Function.comp_apply, Function.comp_apply, h.extendedWith_step hds.names hc,
      TypeDefinition.finish_implementing, TypeDefinition.name_finish,
      TypeDefinition.name_extendedWith]
    split
    · rfl
    · exact NamedType.implementing_nil _

/-- Only the extensions of interfaces lose interfaces. -/
theorem lost_eq_nil (hkind : d.body.kind ≠ .interface) : d.lost ds = [] := by
  refine List.flatMap_eq_nil_iff.mpr fun e he => ?_
  have hown : d.IsExtendedBy e := of_decide_eq_true (List.mem_filter.mp he).2
  have hne : e.body.kind ≠ .interface := hown.2 ▸ hkind
  cases hbody : e.body <;> first | rfl | simp [hbody, Body.kind] at hne

theorem implementing_eq_iff (h : Joined d front back ds es) {query : Option String} :
    (⟨query, describedTypes ds⟩ : Schema).implementing d.name (d.lost ds) =
      ⟨query, describedTypes ds⟩ ↔ d.lost ds = [] := by
  constructor
  · intro heq
    by_cases hkind : d.body.kind = .interface
    · have htypes := List.map_inj_left.mp ((congrArg Schema.types heq).trans (List.map_id _).symm)
      have hd : (d.extendedWith (typeExtensions ds)).draft.finish ∈ describedTypes ds := by
        refine List.mem_append_right _ (List.mem_map.mpr ⟨d, by simp [h.types], rfl⟩)
      have hself := htypes _ hd
      rw [TypeDefinition.name_finish, TypeDefinition.name_extendedWith, if_pos rfl] at hself
      refine NamedType.eq_nil_of_implementing_eq ?_ hself
      rw [TypeDefinition.kind_finish, TypeDefinition.kind_extendedWith, hkind]
    · exact lost_eq_nil hkind
  · intro hnone
    rw [hnone, implementing]
    simp [NamedType.implementing_nil]

end Joined

/-- The definitions without the extensions of a definition. -/
def TypeDefinition.others (d : TypeDefinition) (ds : List (String × Definition)) :
    List (String × Definition) :=
  ds.filter fun p => p.2.extension?.all fun e => ¬ d.IsExtendedBy e

/-- A sequence of definitions in which one definition takes in its extensions. -/
def joinedAt (front : List (String × Definition)) (file : String) (d : TypeDefinition)
    (back : List (String × Definition)) : List (String × Definition) :=
  d.others front ++
    (file, .type (d.joinedWith (d.own ((front ++ back).map Prod.snd)))) :: d.others back

/-- Only extensions are left out. -/
theorem filterMap_others {α : Type} {f : Definition → Option α} (hf : ∀ e, f (.extension e) = none)
    (d : TypeDefinition) (ds : List (String × Definition)) :
    ((d.others ds).map Prod.snd).filterMap f = (ds.map Prod.snd).filterMap f := by
  rw [TypeDefinition.others, List.filterMap_map, List.filterMap_map, List.filterMap_filter]
  refine List.filterMap_congr fun p _ => ?_
  obtain ⟨file, c⟩ := p
  cases c <;> simp [Definition.extension?, hf]

theorem definedTypes_others (d : TypeDefinition) (ds : List (String × Definition)) :
    definedTypes ((d.others ds).map Prod.snd) = definedTypes (ds.map Prod.snd) :=
  filterMap_others (fun _ => rfl) d ds

theorem queryTypes_others (d : TypeDefinition) (ds : List (String × Definition)) :
    queryTypes ((d.others ds).map Prod.snd) = queryTypes (ds.map Prod.snd) :=
  filterMap_others (fun _ => rfl) d ds

theorem typeExtensions_others (d : TypeDefinition) (ds : List (String × Definition)) :
    typeExtensions ((d.others ds).map Prod.snd) =
      (typeExtensions (ds.map Prod.snd)).filter fun e => ¬ d.IsExtendedBy e := by
  rw [typeExtensions, typeExtensions, TypeDefinition.others, List.filterMap_map,
    List.filterMap_map, List.filterMap_filter, List.filter_filterMap]
  refine List.filterMap_congr fun p _ => ?_
  obtain ⟨file, c⟩ := p
  cases c <;> simp [Definition.extension?, Option.filter]

theorem own_whole (front : List (String × Definition)) (file : String) (d : TypeDefinition)
    (back : List (String × Definition)) :
    d.own ((front ++ (file, .type d) :: back).map Prod.snd) =
      d.own ((front ++ back).map Prod.snd) := by
  have hwhole : (front ++ (file, .type d) :: back).map Prod.snd =
      front.map Prod.snd ++ ([.type d] ++ back.map Prod.snd) := by simp
  rw [TypeDefinition.own, TypeDefinition.own, hwhole, List.map_append]
  simp only [typeExtensions_append]
  rfl

theorem joined_joinedAt (front : List (String × Definition)) (file : String) (d : TypeDefinition)
    (back : List (String × Definition)) :
    Joined d (definedTypes (front.map Prod.snd)) (definedTypes (back.map Prod.snd))
      ((front ++ (file, .type d) :: back).map Prod.snd)
      ((joinedAt front file d back).map Prod.snd) := by
  have hwhole (c : TypeDefinition) (xs ys : List (String × Definition)) :
      (xs ++ (file, .type c) :: ys).map Prod.snd =
        xs.map Prod.snd ++ ([.type c] ++ ys.map Prod.snd) := by
    simp
  constructor
  · rw [hwhole, definedTypes_append, definedTypes_append]
    rfl
  · rw [joinedAt, hwhole, own_whole, definedTypes_append, definedTypes_append, definedTypes_others,
      definedTypes_others]
    rfl
  · rw [joinedAt, hwhole, hwhole]
    simp only [typeExtensions_append, typeExtensions_others, List.filter_append]
    rfl
  · rw [joinedAt, hwhole, hwhole]
    simp only [queryTypes_append, queryTypes_others]
    rfl

/-- A type with its extensions and the type written whole are accepted together. The schemas differ
in the interfaces that extensions of an interface name, and only if they name some. -/
theorem ofPlaced_joinedAt (front : List (String × Definition)) (file : String) (d : TypeDefinition)
    (back : List (String × Definition)) :
    (∃ e f, ofPlaced (front ++ (file, .type d) :: back) = .error e ∧
      ofPlaced (joinedAt front file d back) = .error f) ∨
    ∃ s t, ofPlaced (front ++ (file, .type d) :: back) = .ok s ∧
      ofPlaced (joinedAt front file d back) = .ok t ∧
      t = s.implementing d.name (d.lost ((front ++ back).map Prod.snd)) ∧
      (t = s ↔ d.lost ((front ++ back).map Prod.snd) = []) := by
  have hjoined := joined_joinedAt front file d back
  rw [TypeDefinition.lost, ← own_whole front file d back, ← TypeDefinition.lost]
  cases hwhole : ofPlaced (front ++ (file, .type d) :: back) with
  | ok s =>
    obtain ⟨hconsistent, rfl⟩ := ofPlaced_eq_ok.mp hwhole
    refine .inr ⟨_, _, rfl, ofPlaced_eq_ok.mpr ⟨hjoined.consistent_iff.mpr hconsistent, rfl⟩, ?_⟩
    rw [hjoined.chosenQuery_eq hconsistent.names, hjoined.describedTypes_eq hconsistent]
    exact ⟨rfl, hjoined.implementing_eq_iff⟩
  | error e =>
    cases hwritten : ofPlaced (joinedAt front file d back) with
    | ok t =>
      have hconsistent := hjoined.consistent_iff.mp (ofPlaced_eq_ok.mp hwritten).1
      rw [ofPlaced_eq_ok.mpr ⟨hconsistent, rfl⟩] at hwhole
      contradiction
    | error f => exact .inl ⟨e, f, rfl, rfl⟩

private def personText : String :=
  "interface Node \x7b id: ID! \x7d interface Person \x7b name: String \x7d
    extend interface Person implements Node \x7b id: ID! \x7d type Query \x7b me: Person \x7d"

private def person : TypeDefinition :=
  ⟨⟨1, 28⟩, none, "Person", .interface [] [⟨⟨1, 47⟩, "name", [], .named "String" true⟩]⟩

private def beforePerson : List Definition :=
  [.type ⟨⟨1, 1⟩, none, "Node", .interface [] [⟨⟨1, 18⟩, "id", [], .named "ID" false⟩]⟩]

private def afterPerson : List Definition :=
  [.extension ⟨⟨2, 12⟩, "Person", .interface ["Node"] [⟨⟨2, 47⟩, "id", [], .named "ID" false⟩]⟩,
    .type ⟨⟨2, 57⟩, none, "Query", .object [] [⟨⟨2, 70⟩, "me", [], .named "Person" true⟩]⟩]

/-- An interface that is extended to implement another does not implement it. Written whole, it
does. -/
theorem ofPlaced_joinedAt_differs :
    definitions? personText = some (beforePerson ++ .type person :: afterPerson) ∧
    ∃ s t, ofPlaced ((beforePerson ++ .type person :: afterPerson).map (Prod.mk "")) = .ok s ∧
      ofPlaced (joinedAt (beforePerson.map (Prod.mk "")) "" person
        (afterPerson.map (Prod.mk ""))) = .ok t ∧ s ≠ t := by
  refine ⟨by set_option maxRecDepth 1000 in with_unfolding_all rfl, _, _, rfl, rfl, fun heq => ?_⟩
  have hinterfaces := congrArg (fun s : Schema => s.types.map fun t =>
    match t.shape with
    | .interface interfaces _ => interfaces
    | _ => []) heq
  exact absurd hinterfaces (by decide)

end QueryCraft.Schema
