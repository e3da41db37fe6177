import Mathlib.Data.List.Flatten
import QueryCraft.Proofs.Edit.Reaching
import QueryCraft.Proofs.Edit.Selecting

/-!
What an edit at one path can change. Fields aside of the path stay as they are, children of the
fields at the path stay as they are or go, and fields on the path go only if nothing of what is
below them is left.
-/

namespace QueryCraft

namespace Selection

def isNamed (names : List String) (s : Selection) : Bool :=
  s.field?.any fun f => names.contains f.name

/-- What selections may become when the children of the fields at a path are edited. Where the path
ends, some of the children are left, each with everything in it. Above, what does not lead along the
path is left as it is, and a field that does is left with what its children become; only if they
have become nothing it may go, and only if fields may be lost at all. -/
inductive EditedAt (loses : Prop) : List String → List Selection → List Selection → Prop
  | target {ss kept : List Selection} (hkept : kept.Sublist ss) : EditedAt loses [] ss kept
  | nil {name : String} {path : List String} : EditedAt loses (name :: path) [] []
  | aside {name : String} {path : List String} {s : Selection} {ss kept : List Selection}
      (hname : s.hasResponseName name = false) (hrest : EditedAt loses (name :: path) ss kept) :
      EditedAt loses (name :: path) (s :: ss) (s :: kept)
  | leaf {name : String} {path : List String} {f : Field} {ss kept : List Selection}
      (hname : f.responseName = name) (hrest : EditedAt loses (name :: path) ss kept) :
      EditedAt loses (name :: path) (.leaf f :: ss) (.leaf f :: kept)
  | inside {name : String} {path : List String} {f : Field}
      {children childrenKept ss kept : List Selection} (hname : f.responseName = name)
      (hbelow : EditedAt loses path children childrenKept)
      (hrest : EditedAt loses (name :: path) ss kept) :
      EditedAt loses (name :: path) (.branch f children :: ss) (.branch f childrenKept :: kept)
  | lost {name : String} {path : List String} {f : Field} {children ss kept : List Selection}
      (hloses : loses) (hname : f.responseName = name) (hbelow : EditedAt loses path children [])
      (hrest : EditedAt loses (name :: path) ss kept) :
      EditedAt loses (name :: path) (.branch f children :: ss) kept

namespace EditedAt

variable {loses : Prop} {path : List String} {ss kept : List Selection}

theorem refl (loses : Prop) (path : List String) (ss : List Selection) :
    EditedAt loses path ss ss := by
  induction path generalizing ss with
  | nil => exact .target (List.Sublist.refl ss)
  | cons name path ihpath =>
    induction ss with
    | nil => exact .nil
    | cons s ss ih =>
      cases hname : s.hasResponseName name with
      | false => exact .aside hname ih
      | true =>
        have hsome := hasResponseName_iff.mp hname
        cases s with
        | leaf f => exact .leaf (Option.some.inj hsome) ih
        | branch f children => exact .inside (Option.some.inj hsome) (ihpath children) ih
        | verbatim node => contradiction

/-- Where everything has gone, the first selection may as well be put back. -/
theorem first {s : Selection} (h : EditedAt loses path (s :: ss) []) :
    EditedAt loses path (s :: ss) [s] := by
  cases h with
  | target => exact .target (List.singleton_sublist.mpr List.mem_cons_self)
  | lost _ hname _ hrest => exact .inside hname (refl loses _ _) hrest

/-- If no field on the path may be lost, all can go only where the path ends. -/
theorem path_eq_nil {s : Selection} (h : EditedAt loses path (s :: ss) []) (hstays : ¬loses) :
    path = [] := by
  cases h with
  | target => rfl
  | lost hloses => exact absurd hloses hstays

end EditedAt

end Selection

namespace Pruning

variable {p : Pruning} {target : List String}

theorem drops_of_ne (hscope : p.scope = some target) {above : List String} (h : above ≠ target)
    (f : Field) : p.drops above f = false := by
  simp [drops, hscope, h.symm]

/-- Nothing changes where the selections around do not lead to the target. -/
theorem selection_of_not_prefix (hscope : p.scope = some target) {above : List String}
    (h : ¬above <+: target) (s : Selection) : p.selection above s = some s := by
  have hne (above : List String) (h : ¬above <+: target) : above ≠ target := by
    rintro rfl
    exact h (List.prefix_refl above)
  induction s using Selection.inductOn generalizing above with
  | leaf f => exact selection_leaf_eq_some_iff.mpr ⟨drops_of_ne hscope (hne above h) f, rfl⟩
  | verbatim node => rfl
  | branch f children ih =>
    have hbelow : ¬above ++ [f.responseName] <+: target := fun hprefix =>
      h ((List.prefix_append above _).trans hprefix)
    apply selection_branch_eq_self (drops_of_ne hscope (hne above h) f)
    exact selections_eq_self fun s hs => ih s hs hbelow

/-- A selection that does not lead to the target is left as it is. -/
theorem selection_aside {above path : List String} {name : String}
    (hscope : p.scope = some (above ++ name :: path)) {s : Selection}
    (hname : s.hasResponseName name = false) : p.selection above s = some s := by
  have hdrops : ∀ f, p.drops above f = false := drops_of_ne hscope (by simp)
  cases s with
  | leaf f => exact selection_leaf_eq_some_iff.mpr ⟨hdrops f, rfl⟩
  | verbatim node => rfl
  | branch f children =>
    have hbelow : ¬above ++ [f.responseName] <+: above ++ name :: path := by
      intro hprefix
      rw [List.prefix_append_right_inj] at hprefix
      have heq : f.responseName = name := (List.cons_prefix_cons.mp hprefix).1
      exact Bool.eq_false_iff.mp hname (Selection.hasResponseName_iff.mpr (congrArg some heq))
    apply selection_branch_eq_self (hdrops f)
    exact selections_eq_self fun s _ => selection_of_not_prefix hscope hbelow s

/-- At the target, each selection is dropped or left as it is. -/
theorem selection_target (hscope : p.scope = some target) (s : Selection) :
    p.selection target s = if s.field?.any (p.drops target) then none else some s := by
  cases s with
  | leaf f => rfl
  | verbatim node => rfl
  | branch f children =>
    have hbelow : ¬target ++ [f.responseName] <+: target := by
      intro hprefix
      have hle := hprefix.length_le
      rw [List.length_append, List.length_singleton] at hle
      omega
    cases hdrops : p.drops target f with
    | true => simp [selection_branch_eq_none_iff, Selection.field?, hdrops]
    | false =>
      have hself : p.selection target (.branch f children) = some (.branch f children) :=
        selection_branch_eq_self hdrops
          (selections_eq_self fun s _ => selection_of_not_prefix hscope hbelow s)
      simp [hself, Selection.field?, hdrops]

theorem selections_target (hscope : p.scope = some target) (ss : List Selection) :
    p.selections target ss = ss.filter fun s => !s.field?.any (p.drops target) := by
  rw [selections_eq_filterMap, ← List.filterMap_eq_filter]
  apply List.filterMap_congr
  intro s _
  rw [selection_target hscope]
  cases hdrops : s.field?.any (p.drops target) <;> simp [Option.guard, hdrops]

/-- Where a child at the target has one of the names, not all children go. -/
theorem selections_target_ne_nil (hscope : p.scope = some target) {s : Selection}
    {ss : List Selection} (hs : s ∈ ss) (hnamed : s.isNamed p.selected = true) :
    p.selections target ss ≠ [] := by
  apply List.ne_nil_of_mem (a := s)
  rw [selections_target hscope, List.mem_filter]
  refine ⟨hs, ?_⟩
  cases hfield : s.field? with
  | none => rfl
  | some f =>
    have hname : f.name ∈ p.selected := by
      simpa [Selection.isNamed, hfield] using hnamed
    simp [drops, hname]

/-- Along the path to the target, pruning is such an edit. Fields on the path are lost only under
the cascading policy, and only if some field at the target has no child with one of the names. -/
theorem editedAt_selections {loses : Prop} {above path : List String} {ss : List Selection}
    (hscope : p.scope = some (above ++ path))
    (hstays : ¬loses → p.policy = .retainFirst ∨
      ∀ children, Selection.Leads ss path children → ∃ s ∈ children, s.isNamed p.selected = true) :
    Selection.EditedAt loses path ss (p.selections above ss) := by
  induction path generalizing above ss with
  | nil =>
    rw [List.append_nil] at hscope
    rw [selections_target hscope]
    exact .target List.filter_sublist
  | cons name path ihpath =>
    have hdrops : ∀ f, p.drops above f = false := drops_of_ne hscope (by simp)
    have hdown : p.scope = some ((above ++ [name]) ++ path) := by simpa using hscope
    induction ss with
    | nil => exact .nil
    | cons s ss ih =>
      have hrest : Selection.EditedAt loses (name :: path) ss (p.selections above ss) := by
        refine ih fun hnot => (hstays hnot).imp_right fun hnamed children hleads => ?_
        exact hnamed children (hleads.mono (List.subset_cons_self s ss))
      rw [selections_eq_filterMap] at hrest ⊢
      cases hname : s.hasResponseName name with
      | false =>
        rw [List.filterMap_cons_some (selection_aside hscope hname)]
        exact .aside hname hrest
      | true =>
        have hsome := Selection.hasResponseName_iff.mp hname
        cases s with
        | verbatim node => contradiction
        | leaf f =>
          rw [List.filterMap_cons_some (selection_leaf_eq_some_iff.mpr ⟨hdrops f, rfl⟩)]
          exact .leaf (Option.some.inj hsome) hrest
        | branch f children =>
          obtain rfl : f.responseName = name := Option.some.inj hsome
          have hbelow := ihpath hdown fun hnot =>
            (hstays hnot).imp_right fun hnamed target hleads =>
              hnamed target (.down List.mem_cons_self hleads)
          cases hkept : p.selection above (.branch f children) with
          | none =>
            rw [List.filterMap_cons_none hkept]
            obtain hdropped | ⟨hrestores, hne, hempty⟩ := selection_branch_eq_none_iff.mp hkept
            · rw [hdrops] at hdropped
              contradiction
            obtain ⟨first, rest, rfl⟩ := List.exists_cons_of_ne_nil hne
            rw [hempty] at hbelow
            refine .lost ?_ rfl hbelow hrest
            by_contra hnot
            rcases hstays hnot with hretain | hnamed
            · simp [restores, hretain] at hrestores
            · -- All children went, so they stand at the target, where one of them was to stay.
              obtain rfl := hbelow.path_eq_nil hnot
              rw [List.append_nil] at hdown
              obtain ⟨s, hs, hname⟩ := hnamed _ (.down List.mem_cons_self (.here _))
              exact selections_target_ne_nil hdown hs hname hempty
          | some t =>
            rw [List.filterMap_cons_some hkept]
            obtain ⟨-, ⟨-, rfl⟩ | ⟨hempty, -, first, rest, rfl, rfl⟩⟩ :=
              selection_branch_eq_some_iff.mp hkept
            · exact .inside rfl hbelow hrest
            · rw [hempty] at hbelow
              exact .inside rfl hbelow.first hrest

end Pruning

/-- A field of a document: the response names from the top down to its own, and what is selected
below it, if it has a selection set. -/
structure FieldAt where
  path : List String
  field : Field
  children : Option (List Selection)

namespace FieldAt

def head (x : FieldAt) : List String × Field :=
  (x.path, x.field)

/-- Whether the field is one of those to which a path leads, or is above them. -/
def isOn (path : List String) (x : FieldAt) : Bool :=
  decide (x.path <+: path)

/-- Whether the field stands right below those to which a path leads. -/
def isChildOf (path : List String) (x : FieldAt) : Bool :=
  decide (path <+: x.path ∧ x.path.length = path.length + 1)

/-- Whether the field is neither above nor below those to which a path leads, nor one of them. -/
def isAside (path : List String) (x : FieldAt) : Bool :=
  decide (¬x.path <+: path ∧ ¬path <+: x.path)

end FieldAt

namespace Selection

mutual

/-- The fields of a selection with everything below them, where `above` leads to the selection. -/
def fieldsAt (above : List String) : Selection → List FieldAt
  | .leaf f => [⟨above ++ [f.responseName], f, none⟩]
  | .branch f children =>
    ⟨above ++ [f.responseName], f, some children⟩ ::
      allFieldsAt (above ++ [f.responseName]) children
  | .verbatim _ => []

def allFieldsAt (above : List String) : List Selection → List FieldAt
  | [] => []
  | s :: ss => fieldsAt above s ++ allFieldsAt above ss

end

theorem allFieldsAt_eq_flatMap (above : List String) (ss : List Selection) :
    allFieldsAt above ss = ss.flatMap (fieldsAt above) := by
  induction ss with
  | nil => rfl
  | cons s ss ih => rw [allFieldsAt, ih, List.flatMap_cons]

/-- The path of a field goes on from what leads to the selection in which it is. -/
theorem path_of_mem_fieldsAt {s : Selection} {above : List String} {x : FieldAt}
    (hx : x ∈ s.fieldsAt above) : ∃ name more, x.path = above ++ name :: more := by
  induction s using inductOn generalizing above with
  | leaf f =>
    obtain rfl := List.mem_singleton.mp hx
    exact ⟨f.responseName, [], rfl⟩
  | verbatim node => contradiction
  | branch f children ih =>
    rcases List.mem_cons.mp hx with rfl | hx
    · exact ⟨f.responseName, [], rfl⟩
    · rw [allFieldsAt_eq_flatMap] at hx
      obtain ⟨s, hs, hx⟩ := List.mem_flatMap.mp hx
      obtain ⟨name, more, hpath⟩ := ih s hs hx
      exact ⟨f.responseName, name :: more, by rw [hpath, List.append_assoc]; rfl⟩

theorem filter_allFieldsAt_eq_nil {above : List String} {q : FieldAt → Bool}
    (hq : ∀ x name more, x.path = above ++ name :: more → q x = false) (ss : List Selection) :
    (allFieldsAt above ss).filter q = [] := by
  rw [List.filter_eq_nil_iff, allFieldsAt_eq_flatMap]
  intro x hx
  obtain ⟨s, -, hx⟩ := List.mem_flatMap.mp hx
  obtain ⟨name, more, hpath⟩ := path_of_mem_fieldsAt hx
  rw [hq x name more hpath]
  exact Bool.false_ne_true

/-- How an edit at a path relates the fields before and after it, if the relation says so of the
fields where the path ends and of those on the path. -/
theorem EditedAt.relates {loses : Prop} {path : List String} {ss kept : List Selection}
    (R : List FieldAt → List FieldAt → Prop) (full : List String) (hrefl : ∀ xs, R xs xs)
    (happend : ∀ {xs xs' ys ys'}, R xs ys → R xs' ys' → R (xs ++ xs') (ys ++ ys'))
    (htarget : ∀ {ss kept : List Selection}, kept.Sublist ss →
      R (allFieldsAt full ss) (allFieldsAt full kept))
    (hon : ∀ {x y : FieldAt}, x.path <+: full → y.path <+: full → x.head = y.head → R [x] [y])
    (hlost : loses → ∀ {x : FieldAt}, x.path <+: full → R [x] [])
    (h : EditedAt loses path ss kept) {above : List String} (hfull : full = above ++ path) :
    R (allFieldsAt above ss) (allFieldsAt above kept) := by
  induction h generalizing above with
  | target hkept =>
    rw [List.append_nil] at hfull
    subst hfull
    exact htarget hkept
  | nil => exact hrefl []
  | aside _ _ ih => exact happend (hrefl _) (ih hfull)
  | leaf _ _ ih => exact happend (hrefl _) (ih hfull)
  | @inside name path f children childrenKept ss kept hname _ _ ihbelow ih =>
    subst hname
    have hdown : full = above ++ [f.responseName] ++ path := by simpa using hfull
    have hhead : R [⟨above ++ [f.responseName], f, some children⟩]
        [⟨above ++ [f.responseName], f, some childrenKept⟩] :=
      hon ⟨path, hdown.symm⟩ ⟨path, hdown.symm⟩ rfl
    exact happend (happend hhead (ihbelow hdown)) (ih hfull)
  | @lost name path f children ss kept hloses hname _ _ ihbelow ih =>
    subst hname
    have hdown : full = above ++ [f.responseName] ++ path := by simpa using hfull
    have hhead : R [⟨above ++ [f.responseName], f, some children⟩] [] :=
      hlost hloses ⟨path, hdown.symm⟩
    exact happend (happend hhead (ihbelow hdown)) (ih hfull)

section Listed

variable {loses : Prop} {path : List String} {ss kept : List Selection}

/-- Fields aside of the path are the same, with everything below them. -/
theorem EditedAt.filter_isAside (h : EditedAt loses path ss kept) :
    (allFieldsAt [] kept).filter (FieldAt.isAside path) =
      (allFieldsAt [] ss).filter (FieldAt.isAside path) := by
  have hextends (x : FieldAt) (hx : path <+: x.path) : x.isAside path = false := by
    simp [FieldAt.isAside, hx]
  have hon (x : FieldAt) (hx : x.path <+: path) : x.isAside path = false := by
    simp [FieldAt.isAside, hx]
  refine h.relates (fun xs ys =>
    ys.filter (FieldAt.isAside path) = xs.filter (FieldAt.isAside path)) path
    (fun _ => rfl) ?_ ?_ ?_ ?_ rfl
  · intro xs xs' ys ys' hxs hys
    rw [List.filter_append, List.filter_append, hxs, hys]
  · intro ss kept _
    have hnil := filter_allFieldsAt_eq_nil fun x name more hpath =>
      hextends x ⟨name :: more, hpath.symm⟩
    rw [hnil, hnil]
  · intro x y hx hy _
    simp [hon x hx, hon y hy]
  · intro _ x hx
    simp [hon x hx]

/-- The fields right below those at the path are left as they are, with everything below them, or
they go. -/
theorem EditedAt.filter_isChildOf (h : EditedAt loses path ss kept) :
    ((allFieldsAt [] kept).filter (FieldAt.isChildOf path)).Sublist
      ((allFieldsAt [] ss).filter (FieldAt.isChildOf path)) := by
  have hon (x : FieldAt) (hx : x.path <+: path) : x.isChildOf path = false := by
    have hle := hx.length_le
    rw [FieldAt.isChildOf, decide_eq_false_iff_not]
    omega
  refine h.relates (fun xs ys =>
    (ys.filter (FieldAt.isChildOf path)).Sublist (xs.filter (FieldAt.isChildOf path))) path
    (fun _ => List.Sublist.refl _) ?_ ?_ ?_ ?_ rfl
  · intro xs xs' ys ys' hxs hys
    rw [List.filter_append, List.filter_append]
    exact hxs.append hys
  · intro ss kept hkept
    rw [allFieldsAt_eq_flatMap, allFieldsAt_eq_flatMap]
    exact (hkept.flatMap _).filter _
  · intro x y hx hy _
    simp [hon x hx, hon y hy]
  · intro _ x hx
    simp [hon x hx]

/-- If none may be lost, the fields on the path are the same but for what is selected below them. -/
theorem EditedAt.filter_isOn (h : EditedAt loses path ss kept) (hstays : ¬loses) :
    ((allFieldsAt [] kept).filter (FieldAt.isOn path)).map FieldAt.head =
      ((allFieldsAt [] ss).filter (FieldAt.isOn path)).map FieldAt.head := by
  have hextends (x : FieldAt) (name : String) (more : List String)
      (hpath : x.path = path ++ name :: more) : x.isOn path = false := by
    rw [FieldAt.isOn, decide_eq_false_iff_not, hpath]
    intro hprefix
    have hle := hprefix.length_le
    rw [List.length_append, List.length_cons] at hle
    omega
  refine h.relates (fun xs ys => (ys.filter (FieldAt.isOn path)).map FieldAt.head =
    (xs.filter (FieldAt.isOn path)).map FieldAt.head) path (fun _ => rfl) ?_ ?_ ?_ ?_ rfl
  · intro xs xs' ys ys' hxs hys
    rw [List.filter_append, List.filter_append, List.map_append, List.map_append, hxs, hys]
  · intro ss kept _
    rw [filter_allFieldsAt_eq_nil hextends, filter_allFieldsAt_eq_nil hextends]
  · intro x y hx hy hhead
    simp [FieldAt.isOn, hx, hy, hhead]
  · intro hloses
    exact absurd hloses hstays

end Listed

end Selection

namespace Document

/-- The fields of the operation with everything below them, in the order in which they are written.
-/
def allFields (d : Document) : List FieldAt :=
  Selection.allFieldsAt [] d.operation.selections

/-- Whether all fields on a path stay when children with the given names are kept at its end: the
policy retains them, or each field there has such a child. -/
def StaysOn (policy : EmptyPolicy) (path names : List String) (d : Document) : Prop :=
  policy = .retainFirst ∨
    ∀ children, Selection.Leads d.operation.selections path children →
      ∃ s ∈ children, s.isNamed names = true

/-- A selection at a path changes nothing elsewhere. The fields aside of the path are the same, with
everything below them; those right below the path are left with everything below them or go; and
those on the path stay under the conditions above. -/
theorem selectAt_local {policy : EmptyPolicy} {path names : List String} {d e : Document}
    (h : d.selectAt policy path names = .ok e) :
    Selection.EditedAt (¬d.StaysOn policy path names) path d.operation.selections
      e.operation.selections ∧
    e.allFields.filter (FieldAt.isAside path) = d.allFields.filter (FieldAt.isAside path) ∧
    (e.allFields.filter (FieldAt.isChildOf path)).Sublist
      (d.allFields.filter (FieldAt.isChildOf path)) ∧
    (d.StaysOn policy path names →
      (e.allFields.filter (FieldAt.isOn path)).map FieldAt.head =
        (d.allFields.filter (FieldAt.isOn path)).map FieldAt.head) := by
  obtain ⟨-, rfl⟩ := selectAt_ok_iff.mp h
  have hedited : Selection.EditedAt (¬d.StaysOn policy path names) path d.operation.selections
      (Pruning.selections ⟨policy, names, some path⟩ [] d.operation.selections) :=
    Pruning.editedAt_selections rfl Classical.not_not.mp
  refine ⟨hedited, hedited.filter_isAside, hedited.filter_isChildOf, fun hstays => ?_⟩
  exact hedited.filter_isOn (Classical.not_not.mpr hstays)

/-- Two viewers, one with a list of friends and something else, the other with a list alone. -/
private def twoViewers : Document where
  operation :=
    { name := none
      definitions := []
      directives := []
      selections :=
        [.branch ⟨none, "viewer", [], []⟩
          [.leaf ⟨none, "id", [], []⟩,
            .branch ⟨none, "friends", [], []⟩
              [.branch ⟨none, "best", [], []⟩ [.leaf ⟨none, "id", [], []⟩],
                .leaf ⟨none, "age", [], []⟩]],
          .branch ⟨some "viewer", "me", [], []⟩
            [.branch ⟨none, "friends", [], []⟩
              [.leaf ⟨none, "name", [], []⟩, .leaf ⟨none, "id", [], []⟩]],
          .leaf ⟨none, "version", [], []⟩] }
  auxiliary := []

/-- Both lists stay, one with the age and the other with its first field. -/
theorem selectAt_local_twoViewers :
    ∃ e, twoViewers.selectAt .retainFirst ["viewer", "friends"] ["age"] = .ok e ∧
      e.allFields.filter (FieldAt.isAside ["viewer", "friends"]) =
        twoViewers.allFields.filter (FieldAt.isAside ["viewer", "friends"]) ∧
      twoViewers.StaysOn .retainFirst ["viewer", "friends"] ["age"] ∧
      (e.allFields.filter (FieldAt.isOn ["viewer", "friends"])).map FieldAt.head =
        (twoViewers.allFields.filter (FieldAt.isOn ["viewer", "friends"])).map FieldAt.head := by
  have hstays : twoViewers.StaysOn .retainFirst ["viewer", "friends"] ["age"] := .inl rfl
  obtain ⟨e, he⟩ : ∃ e,
      twoViewers.selectAt .retainFirst ["viewer", "friends"] ["age"] = .ok e := ⟨_, rfl⟩
  obtain ⟨-, haside, -, hon⟩ := selectAt_local he
  exact ⟨e, he, haside, hstays, hon hstays⟩

end Document

end QueryCraft
