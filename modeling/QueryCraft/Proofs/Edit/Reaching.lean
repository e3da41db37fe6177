import QueryCraft.Edit.Selecting
import QueryCraft.Proofs.Document.Outlining

/-!
Which paths a scoped selection accepts. The search for the field at a path enters, of several
fields with one response name, only the first, while the outline lists every field.
-/

namespace QueryCraft

namespace Selection

def responseName? (s : Selection) : Option String :=
  s.field?.map Field.responseName

/-- The response names of the fields among some selections. -/
def responseNames (ss : List Selection) : List String :=
  ss.filterMap responseName?

/-- Below the selection, no two fields of one selection set have the same response name. -/
def isDistinct : Selection → Bool
  | .branch _ children => decide (responseNames children).Nodup
  | _ => true

mutual

/-- The selection in which, at every level, only the first of several fields with one response name
is left. -/
def firsts : Selection → Selection
  | .leaf f => .leaf f
  | .branch f children => .branch f (firstsOf [] children)
  | .verbatim node => .verbatim node

/-- The first field of each response name that is not among `seen`, and all verbatim nodes. -/
def firstsOf (seen : List String) : List Selection → List Selection
  | [] => []
  | s :: ss =>
    match s.responseName? with
    | none => firsts s :: firstsOf seen ss
    | some name =>
      if name ∈ seen then firstsOf seen ss else firsts s :: firstsOf (name :: seen) ss

end

theorem responseNames_cons_none {s : Selection} (h : s.responseName? = none)
    (ss : List Selection) : responseNames (s :: ss) = responseNames ss :=
  List.filterMap_cons_none h

theorem responseNames_cons_some {s : Selection} {name : String} (h : s.responseName? = some name)
    (ss : List Selection) : responseNames (s :: ss) = name :: responseNames ss :=
  List.filterMap_cons_some h

theorem mem_responseNames {s : Selection} {ss : List Selection} {name : String} (hs : s ∈ ss)
    (h : s.responseName? = some name) : name ∈ responseNames ss :=
  List.mem_filterMap.mpr ⟨s, hs, h⟩

theorem hasResponseName_iff {name : String} {s : Selection} :
    s.hasResponseName name = true ↔ s.responseName? = some name := by
  cases s with
  | verbatim node => simp [hasResponseName, responseName?, field?]
  | _ f => simp [hasResponseName, responseName?, field?]

theorem responseName?_firsts (s : Selection) : s.firsts.responseName? = s.responseName? := by
  cases s <;> rfl

theorem children?_firsts (s : Selection) : s.firsts.children? = s.children?.map (firstsOf []) := by
  cases s <;> rfl

theorem firstsOf_cons_none {s : Selection} (h : s.responseName? = none) (seen : List String)
    (ss : List Selection) : firstsOf seen (s :: ss) = s.firsts :: firstsOf seen ss := by
  rw [firstsOf, h]

theorem firstsOf_cons_seen {s : Selection} {name : String} {seen : List String}
    (h : s.responseName? = some name) (hseen : name ∈ seen) (ss : List Selection) :
    firstsOf seen (s :: ss) = firstsOf seen ss := by
  rw [firstsOf, h]
  exact if_pos hseen

theorem firstsOf_cons_new {s : Selection} {name : String} {seen : List String}
    (h : s.responseName? = some name) (hseen : name ∉ seen) (ss : List Selection) :
    firstsOf seen (s :: ss) = s.firsts :: firstsOf (name :: seen) ss := by
  rw [firstsOf, h]
  exact if_neg hseen

/-- The first selection is never dropped. -/
theorem firstsOf_eq_nil_iff {ss : List Selection} : firstsOf [] ss = [] ↔ ss = [] := by
  cases ss with
  | nil => simp [firstsOf]
  | cons s ss =>
    cases h : s.responseName? with
    | none => simp [firstsOf_cons_none h]
    | some name => simp [firstsOf_cons_new h (List.not_mem_nil)]

/-- The first field with a name that has not been seen is among the first ones. -/
theorem find?_firstsOf {name : String} {seen : List String} {ss : List Selection}
    (hname : name ∉ seen) :
    (firstsOf seen ss).find? (hasResponseName name) =
      (ss.find? (hasResponseName name)).map firsts := by
  induction ss generalizing seen with
  | nil => rfl
  | cons s ss ih =>
    have hfirsts : s.firsts.hasResponseName name = s.hasResponseName name := by
      rw [Bool.eq_iff_iff, hasResponseName_iff, hasResponseName_iff, responseName?_firsts]
    cases hs : s.hasResponseName name with
    | true =>
      rw [firstsOf_cons_new (hasResponseName_iff.mp hs) hname,
        List.find?_cons_of_pos (hfirsts.trans hs), List.find?_cons_of_pos hs]
      rfl
    | false =>
      have hother : ¬s.hasResponseName name = true := Bool.eq_false_iff.mp hs
      have hother' : ¬s.firsts.hasResponseName name = true := by rwa [hfirsts]
      rw [List.find?_cons_of_neg hother]
      cases h : s.responseName? with
      | none => rw [firstsOf_cons_none h, List.find?_cons_of_neg hother', ih hname]
      | some other =>
        by_cases hseen : other ∈ seen
        · rw [firstsOf_cons_seen h hseen, ih hname]
        · have hne : name ≠ other := by
            rintro rfl
            exact hother (hasResponseName_iff.mpr h)
          rw [firstsOf_cons_new h hseen, List.find?_cons_of_neg hother',
            ih (List.not_mem_cons_of_ne_of_not_mem hne hname)]

/-- The search along a path meets only fields that are the first of their response name. -/
theorem childrenAt?_firstsOf (path : List String) (ss : List Selection) :
    childrenAt? path (firstsOf [] ss) = (childrenAt? path ss).map (firstsOf []) := by
  induction path generalizing ss with
  | nil => rfl
  | cons name path ih =>
    rw [childrenAt?, childrenAt?, find?_firstsOf List.not_mem_nil]
    cases ss.find? (hasResponseName name) with
    | none => rfl
    | some s =>
      cases hs : s.children? with
      | none => simp [children?_firsts, hs]
      | some children => simp [children?_firsts, hs, ih]

theorem exists_branch_of_children? {s : Selection} {name : String} {children : List Selection}
    (hname : s.hasResponseName name = true) (h : s.children? = some children) :
    ∃ f, s = .branch f children ∧ f.responseName = name := by
  cases s with
  | branch f cs =>
    obtain rfl := Option.some.inj h
    exact ⟨f, rfl, Option.some.inj (hasResponseName_iff.mp hname)⟩
  | _ => contradiction

/-- What the search finds, fields lead to. -/
theorem leads_of_childrenAt? {path : List String} {ss target : List Selection}
    (h : childrenAt? path ss = some target) : Leads ss path target := by
  induction path generalizing ss with
  | nil =>
    obtain rfl := Option.some.inj h
    exact .here ss
  | cons name path ih =>
    simp only [childrenAt?, Option.bind_eq_bind, Option.bind_eq_some_iff] at h
    obtain ⟨s, hfind, children, hchildren, hbelow⟩ := h
    obtain ⟨f, rfl, rfl⟩ := exists_branch_of_children? (List.find?_some hfind) hchildren
    exact .down (List.mem_of_find?_eq_some hfind) (ih hbelow)

/-- No selection set has two fields of the same response name, these selections included. -/
structure AreDistinct (ss : List Selection) : Prop where
  nodup : (responseNames ss).Nodup
  below : ∀ s ∈ ss, s.everywhere isDistinct = true

theorem everywhere_isDistinct_branch {f : Field} {children : List Selection} :
    (branch f children).everywhere isDistinct = true ↔ AreDistinct children := by
  rw [everywhere_branch, isDistinct, decide_eq_true_eq]
  exact ⟨fun h => ⟨h.1, h.2⟩, fun h => ⟨h.nodup, h.below⟩⟩

theorem find?_of_nodup {name : String} {ss : List Selection} {s : Selection}
    (h : (responseNames ss).Nodup) (hs : s ∈ ss) (hname : s.responseName? = some name) :
    ss.find? (hasResponseName name) = some s := by
  induction ss with
  | nil => contradiction
  | cons t ss ih =>
    rcases List.mem_cons.mp hs with rfl | hs
    · exact List.find?_cons_of_pos (hasResponseName_iff.mpr hname)
    · have hmem : name ∈ responseNames ss := mem_responseNames hs hname
      have hrest : t.responseName? ≠ some name ∧ (responseNames ss).Nodup := by
        cases ht : t.responseName? with
        | none =>
          rw [responseNames_cons_none ht] at h
          exact ⟨nofun, h⟩
        | some other =>
          rw [responseNames_cons_some ht, List.nodup_cons] at h
          refine ⟨fun heq => h.1 ?_, h.2⟩
          rwa [Option.some.inj heq]
      rw [List.find?_cons_of_neg (hrest.1 ∘ hasResponseName_iff.mp), ih hrest.2 hs]

/-- Where names are distinct, the search finds whatever fields lead to. -/
theorem childrenAt?_of_leads {path : List String} {ss target : List Selection}
    (h : Leads ss path target) (hss : AreDistinct ss) : childrenAt? path ss = some target := by
  induction h with
  | here ss => rfl
  | @down ss children target path f hf _ ih =>
    have hfind : ss.find? (hasResponseName f.responseName) = some (.branch f children) :=
      find?_of_nodup hss.nodup hf rfl
    have hbelow := ih (everywhere_isDistinct_branch.mp (hss.below _ hf))
    rw [childrenAt?, hfind]
    exact hbelow

theorem leads_iff_childrenAt? {path : List String} {ss target : List Selection}
    (hss : AreDistinct ss) : Leads ss path target ↔ childrenAt? path ss = some target :=
  ⟨fun h => childrenAt?_of_leads h hss, leads_of_childrenAt?⟩

theorem areDistinct_firstsOf_of {ss : List Selection}
    (h : ∀ s ∈ ss, s.firsts.everywhere isDistinct = true) (seen : List String) :
    AreDistinct (firstsOf seen ss) ∧ ∀ name ∈ seen, name ∉ responseNames (firstsOf seen ss) := by
  induction ss generalizing seen with
  | nil => exact ⟨⟨List.nodup_nil, nofun⟩, fun _ _ => List.not_mem_nil⟩
  | cons s ss ih =>
    rw [List.forall_mem_cons] at h
    cases hs : s.responseName? with
    | none =>
      obtain ⟨hdistinct, hseen⟩ := ih h.2 seen
      have hnone : s.firsts.responseName? = none := s.responseName?_firsts.trans hs
      rw [firstsOf_cons_none hs, responseNames_cons_none hnone]
      refine ⟨⟨?_, List.forall_mem_cons.mpr ⟨h.1, hdistinct.below⟩⟩, hseen⟩
      rw [responseNames_cons_none hnone]
      exact hdistinct.nodup
    | some name =>
      by_cases hname : name ∈ seen
      · rw [firstsOf_cons_seen hs hname]
        exact ih h.2 seen
      · obtain ⟨hdistinct, hseen⟩ := ih h.2 (name :: seen)
        rw [List.forall_mem_cons] at hseen
        have hsome : s.firsts.responseName? = some name := s.responseName?_firsts.trans hs
        rw [firstsOf_cons_new hs hname, responseNames_cons_some hsome]
        refine ⟨⟨?_, List.forall_mem_cons.mpr ⟨h.1, hdistinct.below⟩⟩, fun other hother => ?_⟩
        · rw [responseNames_cons_some hsome]
          exact List.nodup_cons.mpr ⟨hseen.1, hdistinct.nodup⟩
        · refine List.not_mem_cons_of_ne_of_not_mem ?_ (hseen.2 other hother)
          rintro rfl
          exact hname hother

theorem everywhere_isDistinct_firsts (s : Selection) : s.firsts.everywhere isDistinct = true := by
  induction s using inductOn with
  | leaf f | verbatim node => rfl
  | branch f children ih =>
    exact everywhere_isDistinct_branch.mpr (areDistinct_firstsOf_of ih []).1

theorem areDistinct_firstsOf (ss : List Selection) : AreDistinct (firstsOf [] ss) :=
  (areDistinct_firstsOf_of (fun s _ => s.everywhere_isDistinct_firsts) []).1

theorem firstsOf_eq_self_of {seen : List String} {ss : List Selection}
    (h : ∀ s ∈ ss, s.firsts = s) (hnodup : (responseNames ss).Nodup)
    (hseen : ∀ name ∈ seen, name ∉ responseNames ss) : firstsOf seen ss = ss := by
  induction ss generalizing seen with
  | nil => rfl
  | cons s ss ih =>
    rw [List.forall_mem_cons] at h
    cases hs : s.responseName? with
    | none =>
      rw [responseNames_cons_none hs] at hnodup hseen
      rw [firstsOf_cons_none hs, h.1, ih h.2 hnodup hseen]
    | some name =>
      rw [responseNames_cons_some hs] at hnodup hseen
      obtain ⟨hfresh, hnodup⟩ := List.nodup_cons.mp hnodup
      have hname : name ∉ seen := fun hmem => hseen name hmem List.mem_cons_self
      rw [firstsOf_cons_new hs hname, h.1, ih h.2 hnodup]
      refine List.forall_mem_cons.mpr ⟨hfresh, fun other hother hmem => ?_⟩
      exact hseen other hother (List.mem_cons_of_mem name hmem)

theorem firsts_eq_self {s : Selection} (h : s.everywhere isDistinct = true) : s.firsts = s := by
  induction s using inductOn with
  | leaf f | verbatim node => rfl
  | branch f children ih =>
    have hchildren := everywhere_isDistinct_branch.mp h
    rw [firsts, firstsOf_eq_self_of (fun s hs => ih s hs (hchildren.below s hs)) hchildren.nodup
      (List.forall_mem_nil _)]

/-- Where names are distinct, every field is the first of its name. -/
theorem AreDistinct.firstsOf_eq_self {ss : List Selection} (h : AreDistinct ss) :
    firstsOf [] ss = ss :=
  firstsOf_eq_self_of (fun s hs => firsts_eq_self (h.below s hs)) h.nodup (List.forall_mem_nil _)

end Selection

namespace Document

/-- The document in which, at every level, only the first of several fields with one response name
is left. -/
def firsts (d : Document) : Document :=
  { d with
    operation := { d.operation with selections := Selection.firstsOf [] d.operation.selections } }

/-- No selection set of the operation has two fields of the same response name. -/
def IsDistinct (d : Document) : Prop :=
  Selection.AreDistinct d.operation.selections

variable {path : List String} {d : Document}

theorem hasChildrenAt_iff :
    d.hasChildrenAt path = true ↔ path ≠ [] ∧ ∃ target ≠ [],
      Selection.childrenAt? path d.operation.selections = some target := by
  simp only [hasChildrenAt, Bool.and_eq_true, Bool.not_eq_true', List.isEmpty_eq_false_iff,
    Option.any_eq_true]
  exact and_congr_right fun _ => exists_congr fun target => and_comm

/-- Along a path, the search finds what the outline of the first fields lists. -/
theorem hasChildrenAt_eq : d.hasChildrenAt path = d.firsts.outlinesParentAt path := by
  rw [Bool.eq_iff_iff, hasChildrenAt_iff, outlinesParentAt_iff]
  refine and_congr_right fun _ => ?_
  simp only [firsts, Selection.leads_iff_childrenAt? (Selection.areDistinct_firstsOf _),
    Selection.childrenAt?_firstsOf, Option.map_eq_some_iff]
  constructor
  · rintro ⟨target, hne, hfind⟩
    exact ⟨_, mt Selection.firstsOf_eq_nil_iff.mp hne, target, hfind, rfl⟩
  · rintro ⟨-, hne, target, hfind, rfl⟩
    exact ⟨target, mt Selection.firstsOf_eq_nil_iff.mpr hne, hfind⟩

theorem outlinesParentAt_of_hasChildrenAt (h : d.hasChildrenAt path = true) :
    d.outlinesParentAt path = true := by
  obtain ⟨hpath, target, hne, hfind⟩ := hasChildrenAt_iff.mp h
  exact outlinesParentAt_iff.mpr ⟨hpath, target, hne, Selection.leads_of_childrenAt? hfind⟩

theorem IsDistinct.firsts_eq_self (h : d.IsDistinct) : d.firsts = d := by
  rw [firsts, Selection.AreDistinct.firstsOf_eq_self h]

/-- A scoped selection succeeds exactly if the outline lists a field with children at the path, once
all but the first of several fields with one response name are left out; else the path is unknown.
Such a field is always listed, and where names are distinct nothing is left out. -/
theorem selectAt_ok_iff_firsts (policy : EmptyPolicy) (path names : List String) (d : Document) :
    ((∃ e, d.selectAt policy path names = .ok e) ↔ d.firsts.outlinesParentAt path = true) ∧
      (d.firsts.outlinesParentAt path = false →
        d.selectAt policy path names = .error (.unknownPath path)) ∧
      (d.firsts.outlinesParentAt path = true → d.outlinesParentAt path = true) ∧
      (d.IsDistinct →
        ((∃ e, d.selectAt policy path names = .ok e) ↔ d.outlinesParentAt path = true)) := by
  have hok : (∃ e, d.selectAt policy path names = .ok e) ↔
      d.firsts.outlinesParentAt path = true := by
    rw [← hasChildrenAt_eq, selectAt]
    cases d.hasChildrenAt path <;> simp
  refine ⟨hok, fun h => ?_, fun h => ?_, fun h => ?_⟩
  · rw [← hasChildrenAt_eq] at h
    rw [selectAt, h]
    rfl
  · rw [← hasChildrenAt_eq] at h
    exact outlinesParentAt_of_hasChildrenAt h
  · rw [hok, h.firsts_eq_self]

/-- A viewer selected once, with its friends. -/
private def viewerFriends : Document where
  operation :=
    { name := none
      definitions := []
      directives := []
      selections :=
        [.branch ⟨some "me", "viewer", [], []⟩
          [.leaf ⟨none, "id", [], []⟩,
            .branch ⟨none, "friends", [], []⟩ [.leaf ⟨none, "name", [], []⟩]]] }
  auxiliary := []

theorem selectAt_ok_iff_firsts_viewerFriends :
    ∃ e, viewerFriends.selectAt .cascade ["me", "friends"] ["name"] = .ok e := by
  have hdistinct : viewerFriends.IsDistinct := ⟨by decide, by decide⟩
  have houtlined : viewerFriends.outlinesParentAt ["me", "friends"] = true := by
    rw [outlinesParentAt, outline_eq_entries]
    decide
  exact ((selectAt_ok_iff_firsts .cascade ["me", "friends"] ["name"] viewerFriends).2.2.2
    hdistinct).mpr houtlined

/-- A viewer selected twice, and only the second time with friends. -/
private def repeatedViewer : Document where
  operation :=
    { name := none
      definitions := []
      directives := []
      selections :=
        [.branch ⟨none, "viewer", [], []⟩ [.leaf ⟨none, "id", [], []⟩],
          .branch ⟨none, "viewer", [], []⟩
            [.branch ⟨none, "friends", [], []⟩ [.leaf ⟨none, "name", [], []⟩]]] }
  auxiliary := []

/-- The friends are outlined, but the search for them does not go beyond the first viewer. -/
theorem selectAt_differs_repeatedViewer :
    repeatedViewer.outlinesParentAt ["viewer", "friends"] = true ∧
      repeatedViewer.selectAt .cascade ["viewer", "friends"] ["name"] =
        .error (.unknownPath ["viewer", "friends"]) := by
  constructor
  · rw [outlinesParentAt, outline_eq_entries]
    decide
  · rfl

end Document

end QueryCraft
