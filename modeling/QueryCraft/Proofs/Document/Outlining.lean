import QueryCraft.Document.Outline
import QueryCraft.Proofs.Document.Conditions

/-!
The outline of a document by recursion over its selections: the walk lists a pending selection and
everything below it before it goes on to the next one.
-/

namespace QueryCraft

mutual

/-- The entries of a selection at a depth and of everything below it, where `path` leads to the
selection. -/
def Selection.entries (depth : Nat) (path : List String) : Selection → List OutlineEntry
  | .leaf f => [Pending.entry ⟨depth, path, .leaf f⟩]
  | .branch f children =>
    Pending.entry ⟨depth, path, .branch f children⟩ ::
      Selection.listEntries (depth + 1) (path ++ [f.responseName]) children
  | .verbatim node => [Pending.entry ⟨depth, path, .verbatim node⟩]

def Selection.listEntries (depth : Nat) (path : List String) : List Selection → List OutlineEntry
  | [] => []
  | s :: ss => Selection.entries depth path s ++ Selection.listEntries depth path ss

end

theorem Selection.listEntries_eq_flatMap (depth : Nat) (path : List String) (ss : List Selection) :
    listEntries depth path ss = ss.flatMap (entries depth path) := by
  induction ss with
  | nil => rfl
  | cons s ss ih => rw [listEntries, ih, List.flatMap_cons]

namespace Pending

def entries (p : Pending) : List OutlineEntry :=
  p.selection.entries p.depth p.path

theorem entries_eq (p : Pending) : p.entries = p.entry :: p.below.flatMap entries := by
  obtain ⟨depth, path, s⟩ := p
  cases s with
  | branch f children =>
    rw [entries, Selection.entries, Selection.listEntries_eq_flatMap, below, List.flatMap_map]
    rfl
  | _ => rfl

/-- What is pending is listed selection by selection, each with what is below it. -/
theorem walk_eq_flatMap (pending : List Pending) : walk pending = pending.flatMap entries := by
  induction pending using walk.induct with
  | case1 => rw [walk, List.flatMap_nil]
  | case2 p rest ih =>
    rw [walk, ih, List.flatMap_append, List.flatMap_cons, entries_eq, List.cons_append]

end Pending

theorem Document.outline_eq_entries (d : Document) :
    d.outline = Selection.listEntries 0 [] d.operation.selections := by
  rw [outline, Pending.walk_eq_flatMap, List.flatMap_map, Selection.listEntries_eq_flatMap]
  rfl

/-- Holds of the entry of a field with children at the given path. -/
def OutlineEntry.isParentAt (path : List String) : OutlineEntry → Bool
  | .field _ _ fieldPath _ hasChildren => fieldPath == path && hasChildren
  | .verbatim .. => false

/-- Whether the outline has a field with children at the path. -/
def Document.outlinesParentAt (path : List String) (d : Document) : Bool :=
  d.outline.any (OutlineEntry.isParentAt path)

namespace Selection

/-- Fields lead from some selections along a path to the selections below the last one. At each
level any field with the response name counts, not only the first. -/
inductive Leads : List Selection → List String → List Selection → Prop
  | here (ss : List Selection) : Leads ss [] ss
  | down {ss children target : List Selection} {path : List String} {f : Field}
      (hf : .branch f children ∈ ss) (hbelow : Leads children path target) :
      Leads ss (f.responseName :: path) target

/-- What some of the selections lead to, all of them lead to. -/
theorem Leads.mono {ss ts target : List Selection} {name : String} {path : List String}
    (h : Leads ss (name :: path) target) (hsubset : ss ⊆ ts) : Leads ts (name :: path) target := by
  cases h with
  | down hf hbelow => exact .down (hsubset hf) hbelow

/-- The first step of a path leads through one of the selections. -/
theorem leads_cons_iff {ss target : List Selection} {name : String} {path : List String} :
    Leads ss (name :: path) target ↔ ∃ s ∈ ss, Leads [s] (name :: path) target := by
  constructor
  · rintro (_ | ⟨hf, hbelow⟩)
    exact ⟨_, hf, .down (List.mem_singleton.mpr rfl) hbelow⟩
  · rintro ⟨s, hs, _ | ⟨hf, hbelow⟩⟩
    rw [List.mem_singleton] at hf
    exact .down (hf ▸ hs) hbelow

/-- A path leads from a field through its children. -/
theorem leads_branch_iff {f : Field} {children target : List Selection} {name : String}
    {path : List String} :
    Leads [.branch f children] (name :: path) target ↔
      f.responseName = name ∧ Leads children path target := by
  constructor
  · rintro (_ | ⟨hf, hbelow⟩)
    obtain ⟨rfl, rfl⟩ := Selection.branch.inj (List.mem_singleton.mp hf)
    exact ⟨rfl, hbelow⟩
  · rintro ⟨rfl, hbelow⟩
    exact .down (List.mem_singleton.mpr rfl) hbelow

/-- The fields with children among the entries of a selection are those to which it leads. -/
theorem exists_entry_iff {s : Selection} {depth : Nat} {above path : List String} :
    (∃ e ∈ s.entries depth above, e.isParentAt path = true) ↔
      ∃ name names target, path = above ++ name :: names ∧ target ≠ [] ∧
        Leads [s] (name :: names) target := by
  induction s using Selection.inductOn generalizing depth above with
  | leaf f =>
    constructor
    · rintro ⟨e, he, hparent⟩
      obtain rfl := List.mem_singleton.mp he
      simp [Pending.entry, OutlineEntry.isParentAt] at hparent
    · rintro ⟨name, names, target, -, -, hleads⟩
      obtain _ | ⟨hf, -⟩ := hleads
      cases List.mem_singleton.mp hf
  | verbatim node =>
    constructor
    · rintro ⟨e, he, hparent⟩
      obtain rfl := List.mem_singleton.mp he
      contradiction
    · rintro ⟨name, names, target, -, -, hleads⟩
      obtain _ | ⟨hf, -⟩ := hleads
      cases List.mem_singleton.mp hf
  | branch f children ih =>
    have hself : (Pending.entry ⟨depth, above, .branch f children⟩).isParentAt path = true ↔
        above ++ [f.responseName] = path ∧ children ≠ [] := by
      simp [Pending.entry, Pending.fieldPath, OutlineEntry.isParentAt]
    have hmiddle (names : List String) :
        above ++ f.responseName :: names = above ++ [f.responseName] ++ names := by simp
    constructor
    · rintro ⟨e, he, hparent⟩
      rcases List.mem_cons.mp he with rfl | he
      · obtain ⟨rfl, hne⟩ := hself.mp hparent
        exact ⟨_, [], children, rfl, hne, leads_branch_iff.mpr ⟨rfl, .here children⟩⟩
      · rw [listEntries_eq_flatMap] at he
        obtain ⟨s, hs, he⟩ := List.mem_flatMap.mp he
        obtain ⟨name, names, target, hpath, hne, hleads⟩ := (ih s hs).mp ⟨e, he, hparent⟩
        have hbelow := leads_cons_iff.mpr ⟨s, hs, hleads⟩
        exact ⟨f.responseName, name :: names, target, hpath.trans (hmiddle _).symm, hne,
          leads_branch_iff.mpr ⟨rfl, hbelow⟩⟩
    · rintro ⟨name, names, target, hpath, hne, hleads⟩
      obtain ⟨rfl, hbelow⟩ := leads_branch_iff.mp hleads
      cases names with
      | nil =>
        obtain _ | _ := hbelow
        exact ⟨_, List.mem_cons_self, hself.mpr ⟨hpath.symm, hne⟩⟩
      | cons name names =>
        obtain ⟨s, hs, hleads⟩ := leads_cons_iff.mp hbelow
        obtain ⟨e, he, hparent⟩ :=
          (ih s hs).mpr ⟨name, names, target, hpath.trans (hmiddle _), hne, hleads⟩
        refine ⟨e, List.mem_cons_of_mem _ ?_, hparent⟩
        rw [listEntries_eq_flatMap]
        exact List.mem_flatMap.mpr ⟨s, hs, he⟩

end Selection

/-- The outline has a field with children at a path exactly if fields lead along the path to some
selections. -/
theorem Document.outlinesParentAt_iff {path : List String} {d : Document} :
    d.outlinesParentAt path = true ↔
      path ≠ [] ∧ ∃ target ≠ [], Selection.Leads d.operation.selections path target := by
  simp only [outlinesParentAt, outline_eq_entries, Selection.listEntries_eq_flatMap,
    List.any_flatMap, List.any_eq_true, Selection.exists_entry_iff, List.nil_append]
  constructor
  · rintro ⟨s, hs, name, names, target, rfl, hne, hleads⟩
    exact ⟨List.cons_ne_nil _ _, target, hne, Selection.leads_cons_iff.mpr ⟨s, hs, hleads⟩⟩
  · rintro ⟨hpath, target, hne, hleads⟩
    cases path with
    | nil => contradiction
    | cons name names =>
      obtain ⟨s, hs, hleads⟩ := Selection.leads_cons_iff.mp hleads
      exact ⟨s, hs, name, names, target, rfl, hne, hleads⟩

end QueryCraft
