import QueryCraft.Proofs.Schema.Steps

/-!
Merging extensions. The types that loading keeps are those of a list of definitions, and merging an
extension makes them those of the list in which the definition with its name is extended.
-/

namespace QueryCraft.Schema

/-- What a definition and an extension of its kind say together. The interfaces of an interface are
those of its definition. -/
def Body.extend : Body → Body → Body
  | .object interfaces fields, .object moreInterfaces moreFields =>
    .object (interfaces ++ moreInterfaces) (fields ++ moreFields)
  | .interface interfaces fields, .interface _ moreFields =>
    .interface interfaces (fields ++ moreFields)
  | .union members, .union more => .union (members ++ more)
  | .enum values, .enum more => .enum (values ++ more)
  | .input fields, .input more => .input (fields ++ more)
  | body, _ => body

theorem Body.kind_extend (b c : Body) : (b.extend c).kind = b.kind := by
  cases b <;> cases c <;> rfl

theorem Body.memberNames_extend {b c : Body} (h : b.kind = c.kind) :
    (b.extend c).memberNames = b.memberNames ++ c.memberNames := by
  cases b <;> cases c <;>
    first | contradiction | simp [extend, memberNames, fields, inputs]

theorem Body.extend_of_kind_ne {b c : Body} (h : b.kind ≠ c.kind) : b.extend c = b := by
  cases b <;> cases c <;> first | rfl | contradiction

theorem Body.draft_extend {parent : String} {b c : Body} :
    (b.extend c).draft parent = (b.draft parent).joined parent c := by
  cases b <;> cases c <;> simp [extend, draft, ShapeDraft.joined]

namespace TypeDefinition

variable {d : TypeDefinition} {e : TypeExtension}

/-- An extension of a definition has its name and its kind. -/
def IsExtendedBy (d : TypeDefinition) (e : TypeExtension) : Prop :=
  e.name = d.name ∧ d.body.kind = e.body.kind

instance : Decidable (d.IsExtendedBy e) :=
  inferInstanceAs (Decidable (_ ∧ _))

/-- The definition with an extension that has its name. -/
def extendedBy (d : TypeDefinition) (e : TypeExtension) : TypeDefinition :=
  if e.name = d.name then { d with body := d.body.extend e.body } else d

/-- The definition with all extensions that have its name. -/
def extendedWith (d : TypeDefinition) (es : List TypeExtension) : TypeDefinition :=
  es.foldl extendedBy d

@[simp] theorem extendedWith_nil : d.extendedWith [] = d := rfl

@[simp] theorem extendedWith_cons (es : List TypeExtension) :
    d.extendedWith (e :: es) = (d.extendedBy e).extendedWith es := rfl

@[simp] theorem name_extendedBy : (d.extendedBy e).name = d.name := by
  unfold extendedBy
  split <;> rfl

@[simp] theorem kind_extendedBy : (d.extendedBy e).body.kind = d.body.kind := by
  unfold extendedBy
  split
  · exact d.body.kind_extend e.body
  · rfl

theorem extendedBy_of_ne (h : e.name ≠ d.name) : d.extendedBy e = d :=
  if_neg h

theorem extendedBy_of_eq (h : e.name = d.name) :
    d.extendedBy e = { d with body := d.body.extend e.body } :=
  if_pos h

theorem extendedBy_of_not (h : ¬ d.IsExtendedBy e) : d.extendedBy e = d := by
  by_cases hname : e.name = d.name
  · rw [extendedBy_of_eq hname, Body.extend_of_kind_ne fun hkind => h ⟨hname, hkind⟩]
  · exact extendedBy_of_ne hname

@[simp] theorem name_extendedWith (es : List TypeExtension) :
    (d.extendedWith es).name = d.name := by
  induction es generalizing d with
  | nil => rfl
  | cons e es ih => exact ih.trans name_extendedBy

@[simp] theorem kind_extendedWith (es : List TypeExtension) :
    (d.extendedWith es).body.kind = d.body.kind := by
  induction es generalizing d with
  | nil => rfl
  | cons e es ih => exact ih.trans kind_extendedBy

/-- Extensions of its kind add the names of their members to those of a type. -/
theorem memberNames_extendedWith {es : List TypeExtension}
    (h : ∀ e ∈ es, e.name = d.name → d.body.kind = e.body.kind) :
    (d.extendedWith es).body.memberNames =
      d.body.memberNames ++ (es.filter (·.name = d.name)).flatMap (·.body.memberNames) := by
  induction es generalizing d with
  | nil => simp [extendedWith]
  | cons e es ih =>
    rw [List.forall_mem_cons] at h
    have hrest := ih (d := d.extendedBy e) (by simpa using h.2)
    rw [name_extendedBy] at hrest
    refine hrest.trans ?_
    by_cases hname : e.name = d.name
    · rw [extendedBy_of_eq hname, Body.memberNames_extend (h.1 hname),
        List.filter_cons_of_pos (by simpa using hname), List.flatMap_cons, List.append_assoc]
    · rw [extendedBy_of_ne hname, List.filter_cons_of_neg (by simpa using hname)]

theorem memberNames_prefix_extendedWith (es : List TypeExtension) :
    d.body.memberNames <+: (d.extendedWith es).body.memberNames := by
  induction es generalizing d with
  | nil => exact List.prefix_rfl
  | cons e es ih =>
    have hstep : d.body.memberNames <+: (d.extendedBy e).body.memberNames := by
      by_cases hown : d.IsExtendedBy e
      · rw [extendedBy_of_eq hown.1, Body.memberNames_extend hown.2]
        exact List.prefix_append _ _
      · simpa only [extendedBy_of_not hown] using List.prefix_rfl
    exact hstep.trans ih

/-- The type that a definition makes, whether or not the names of its members differ. -/
def draft (d : TypeDefinition) : TypeDraft :=
  ⟨d.name, d.description, d.body.draft d.name⟩

def entry (d : TypeDefinition) : String × TypeDraft :=
  (d.name, d.draft)

end TypeDefinition

def builtinNames : List String :=
  BuiltinScalar.all.map BuiltinScalar.name

/-- The types of definitions as loading keeps them, behind the types that every schema has. -/
def entries (defs : List TypeDefinition) : Keyed.Map TypeDraft :=
  Builder.initial.types ++ defs.map TypeDefinition.entry

theorem names_entries (defs : List TypeDefinition) :
    Keyed.names (entries defs) = builtinNames ++ defs.map TypeDefinition.name := by
  rw [entries, Keyed.names, List.map_append, List.map_map]
  rfl

/-- With different names, an extension changes the shape of the one type that has its name. -/
theorem mergeExtension_eq_ok_of_nodup {types out : Keyed.Map TypeDraft} {file : String}
    {e : TypeExtension} (hnames : (Keyed.names types).Nodup) :
    mergeExtension types file e = .ok out ↔
      ∃ t shape, (e.name, t) ∈ types ∧ t.shape.kind = e.body.kind ∧
        t.extendedShape file e = .ok shape ∧
          out = types.map fun p => if p.1 = e.name then (p.1, { p.2 with shape }) else p := by
  have hrest {shape : ShapeDraft} {ps : Keyed.Map TypeDraft} (h : e.name ∉ Keyed.names ps) :
      ps.map (fun p => if p.1 = e.name then (p.1, { p.2 with shape }) else p) = ps := by
    refine (List.map_congr_left fun p hp => if_neg ?_).trans ps.map_id
    exact fun heq => h (List.mem_map.mpr ⟨p, hp, heq⟩)
  have hsplit {t : TypeDraft} {front back : Keyed.Map TypeDraft}
      (h : types = front ++ (e.name, t) :: back) :
      e.name ∉ Keyed.names front ∧ e.name ∉ Keyed.names back := by
    rw [h, Keyed.names, List.map_append, List.map_cons, List.nodup_middle, List.nodup_cons,
      List.mem_append, not_or] at hnames
    exact hnames.1
  rw [mergeExtension_eq_ok]
  constructor
  · rintro ⟨front, t, back, shape, heq, hfront, hkind, hshape, rfl⟩
    refine ⟨t, shape, heq ▸ by simp, hkind, hshape, ?_⟩
    rw [heq, List.map_append, List.map_cons, hrest hfront, hrest (hsplit heq).2, if_pos rfl]
  · rintro ⟨t, shape, hmem, hkind, hshape, rfl⟩
    obtain ⟨front, back, heq⟩ := List.append_of_mem hmem
    refine ⟨front, t, back, shape, heq, (hsplit heq).1, hkind, hshape, ?_⟩
    rw [heq, List.map_append, List.map_cons, hrest (hsplit heq).1, hrest (hsplit heq).2, if_pos rfl]

/-- Definitions that can be declared together. -/
structure Declarable (defs : List TypeDefinition) : Prop where
  names : (defs.map TypeDefinition.name).Nodup
  notBuiltin : ∀ d ∈ defs, d.name ∉ builtinNames
  members : ∀ d ∈ defs, d.body.memberNames.Nodup

namespace Declarable

variable {defs : List TypeDefinition} {e : TypeExtension}

theorem nodup_names_entries (h : Declarable defs) : (Keyed.names (entries defs)).Nodup := by
  rw [names_entries, List.nodup_append]
  refine ⟨by decide, h.names, ?_⟩
  rintro name hbuiltin _ hdefined rfl
  obtain ⟨d, hd, rfl⟩ := List.mem_map.mp hdefined
  exact h.notBuiltin d hd hbuiltin

theorem extendedBy (h : Declarable defs)
    (hmembers : ∀ d ∈ defs, (d.extendedBy e).body.memberNames.Nodup) :
    Declarable (defs.map (·.extendedBy e)) where
  names := by simpa [Function.comp_def] using h.names
  notBuiltin := by simpa using h.notBuiltin
  members := by simpa using hmembers

theorem eq_of_name_eq (h : Declarable defs) {c d : TypeDefinition} (hc : c ∈ defs) (hd : d ∈ defs)
    (hname : c.name = d.name) : c = d :=
  List.inj_on_of_nodup_map h.names hc hd hname

/-- The shape of the extended definition is the only thing that changes. -/
theorem map_entries (h : Declarable defs) {d : TypeDefinition} (hd : d ∈ defs)
    (hname : d.name = e.name) :
    (entries defs).map (fun p => if p.1 = e.name then
        (p.1, { p.2 with shape := (d.body.draft d.name).joined d.name e.body }) else p) =
      entries (defs.map (·.extendedBy e)) := by
  rw [entries, entries, List.map_append, List.map_map, List.map_map]
  congr 1
  · refine (List.map_congr_left fun p hp => if_neg ?_).trans (List.map_id _)
    intro heq
    refine h.notBuiltin d hd ?_
    obtain ⟨b, hb, rfl⟩ := List.mem_map.mp hp
    exact List.mem_map.mpr ⟨b, hb, heq.trans hname.symm⟩
  · refine List.map_congr_left fun c hc => ?_
    by_cases hsame : c.name = e.name
    · obtain rfl := h.eq_of_name_eq hc hd (hsame.trans hname.symm)
      simp [TypeDefinition.entry, TypeDefinition.draft, hname, TypeDefinition.extendedBy_of_eq,
        Body.draft_extend]
    · simp [TypeDefinition.entry, hsame, TypeDefinition.extendedBy_of_ne (Ne.symm hsame)]

theorem forall_nodup_extendedBy_iff (h : Declarable defs) {d : TypeDefinition} (hd : d ∈ defs)
    (hname : d.name = e.name) (hkind : d.body.kind = e.body.kind) :
    (∀ c ∈ defs, (c.extendedBy e).body.memberNames.Nodup) ↔
      e.body.memberNames.Nodup ∧ ∀ n ∈ e.body.memberNames, n ∉ d.body.memberNames := by
  have hextended : (d.extendedBy e).body.memberNames = d.body.memberNames ++ e.body.memberNames := by
    rw [TypeDefinition.extendedBy_of_eq hname.symm, Body.memberNames_extend hkind]
  constructor
  · intro hall
    have hboth := hall d hd
    rw [hextended, List.nodup_append'] at hboth
    exact ⟨hboth.2.1, fun n hn hn' => hboth.2.2 hn' hn⟩
  · rintro ⟨hnew, hfresh⟩ c hc
    by_cases hsame : c.name = e.name
    · obtain rfl := h.eq_of_name_eq hc hd (hsame.trans hname.symm)
      rw [hextended, List.nodup_append']
      exact ⟨h.members c hc, hnew, fun n hn hn' => hfresh n hn' hn⟩
    · rw [TypeDefinition.extendedBy_of_ne (Ne.symm hsame)]
      exact h.members c hc

/-- An extension is merged if it extends a definition of its kind and leaves the names of the
members different. -/
theorem mergeExtension_eq_ok (h : Declarable defs) {file : String} {out : Keyed.Map TypeDraft} :
    mergeExtension (entries defs) file e = .ok out ↔
      (∃ d ∈ defs, d.name = e.name ∧ d.body.kind = e.body.kind) ∧
        (∀ d ∈ defs, (d.extendedBy e).body.memberNames.Nodup) ∧
          out = entries (defs.map (·.extendedBy e)) := by
  rw [mergeExtension_eq_ok_of_nodup h.nodup_names_entries]
  constructor
  · rintro ⟨t, shape, hmem, hkind, hshape, rfl⟩
    rcases List.mem_append.mp hmem with hbuiltin | hdefined
    · obtain ⟨b, -, heq⟩ := List.mem_map.mp hbuiltin
      obtain ⟨-, rfl⟩ := Prod.ext_iff.mp heq
      exact absurd hkind (b.kind_draft_ne e.body)
    · obtain ⟨d, hd, heq⟩ := List.mem_map.mp hdefined
      obtain ⟨hname, rfl⟩ := Prod.ext_iff.mp heq
      have hname : d.name = e.name := hname
      have hkinds : d.body.kind = e.body.kind := (d.body.kind_draft d.name).symm.trans hkind
      obtain ⟨hnew, hfresh, rfl⟩ := (TypeDraft.extendedShape_eq_ok hkind).mp hshape
      refine ⟨⟨d, hd, hname, hkinds⟩, ?_, h.map_entries hd hname⟩
      rw [h.forall_nodup_extendedBy_iff hd hname hkinds, ← d.body.memberNames_draft d.name]
      exact ⟨hnew, hfresh⟩
  · rintro ⟨⟨d, hd, hname, hkinds⟩, hall, rfl⟩
    have hkind : d.draft.shape.kind = e.body.kind := (d.body.kind_draft d.name).trans hkinds
    rw [h.forall_nodup_extendedBy_iff hd hname hkinds, ← d.body.memberNames_draft d.name] at hall
    refine ⟨d.draft, _, ?_, hkind, (TypeDraft.extendedShape_eq_ok hkind).mpr ⟨hall.1, hall.2, rfl⟩,
      (h.map_entries hd hname).symm⟩
    rw [← hname]
    exact List.mem_append_right _ (List.mem_map.mpr ⟨d, hd, rfl⟩)

/-- All extensions are merged if each extends a definition of its kind and the names of the members
that a type has in the end differ. -/
theorem mergeExtensions_eq_ok (h : Declarable defs) {es : List (String × TypeExtension)}
    {out : Keyed.Map TypeDraft} :
    es.foldlM (fun types (file, e) => mergeExtension types file e) (entries defs) = .ok out ↔
      (∀ e ∈ es.map Prod.snd, ∃ d ∈ defs, d.name = e.name ∧ d.body.kind = e.body.kind) ∧
        (∀ d ∈ defs, (d.extendedWith (es.map Prod.snd)).body.memberNames.Nodup) ∧
          out = entries (defs.map (·.extendedWith (es.map Prod.snd))) := by
  induction es generalizing defs with
  | nil =>
    have hnil : (pure (entries defs) : Except BuildError _) = .ok out ↔ out = entries defs := by
      simp [pure, Except.pure, eq_comm]
    simpa [hnil] using fun _ => h.members
  | cons e es ih =>
    simp only [List.foldlM_cons, bind_eq_ok, h.mergeExtension_eq_ok, List.map_cons,
      List.forall_mem_cons]
    constructor
    · rintro ⟨types, ⟨hextends, hmembers, rfl⟩, hrest⟩
      obtain ⟨hextendsAll, hmembersAll, rfl⟩ := (ih (h.extendedBy hmembers)).mp hrest
      exact ⟨⟨hextends, by simpa using hextendsAll⟩, by simpa using hmembersAll,
        by simp [Function.comp_def]⟩
    · rintro ⟨⟨hextends, hextendsAll⟩, hmembersAll, rfl⟩
      have hmembers : ∀ d ∈ defs, (d.extendedBy e.2).body.memberNames.Nodup := fun d hd =>
        (hmembersAll d hd).sublist (TypeDefinition.memberNames_prefix_extendedWith _).sublist
      refine ⟨_, ⟨hextends, hmembers, rfl⟩, (ih (h.extendedBy hmembers)).mpr ⟨?_, ?_, ?_⟩⟩
      · simpa using hextendsAll
      · simpa using hmembersAll
      · simp [Function.comp_def]

end Declarable

end QueryCraft.Schema
