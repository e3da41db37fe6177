import Mathlib.Data.List.Basic
import QueryCraft.Proofs.Document.Outlining

/-!
The selections of a document in the order in which they are written, each with the fields around it.
The outline has one entry for each of them, which tells where it stands and nothing of what is below
it but whether there is anything.
-/

namespace QueryCraft

/-- A selection, and the fields around it from the outermost on. -/
structure Located where
  above : List Field
  selection : Selection

mutual

/-- A selection below some fields, then everything below it: each child with all that is below it,
from the first to the last. -/
def Selection.located (above : List Field) : Selection → List Located
  | .leaf f => [⟨above, .leaf f⟩]
  | .branch f children =>
    ⟨above, .branch f children⟩ :: Selection.listLocated (above ++ [f]) children
  | .verbatim node => [⟨above, .verbatim node⟩]

def Selection.listLocated (above : List Field) : List Selection → List Located
  | [] => []
  | s :: ss => Selection.located above s ++ Selection.listLocated above ss

end

/-- All selections of a document. -/
def Document.located (d : Document) : List Located :=
  Selection.listLocated [] d.operation.selections

/-- The response names of the fields around the selection. -/
def Located.path (l : Located) : List String :=
  l.above.map Field.responseName

/-- How the selection is outlined: by the number of fields around it and, if it is a field, by its
name, its path, the names of its arguments and whether it has children. -/
def Located.outlined (l : Located) : OutlineEntry :=
  match l.selection with
  | .leaf f =>
    .field l.above.length f.name (l.path ++ [f.responseName]) (f.arguments.map Argument.name) false
  | .branch f children =>
    .field l.above.length f.name (l.path ++ [f.responseName]) (f.arguments.map Argument.name)
      (!children.isEmpty)
  | .verbatim node => .verbatim l.above.length node.kind

namespace Selection

variable {above : List Field}

theorem listLocated_eq_flatMap (above : List Field) (ss : List Selection) :
    listLocated above ss = ss.flatMap (located above) := by
  induction ss with
  | nil => rfl
  | cons s ss ih => rw [listLocated, ih, List.flatMap_cons]

theorem located_branch (above : List Field) (f : Field) (children : List Selection) :
    located above (.branch f children) =
      ⟨above, .branch f children⟩ :: children.flatMap (located (above ++ [f])) := by
  rw [located, listLocated_eq_flatMap]

/-- The entry that the walk makes of a selection is that for the fields around it, if it has come to
it with their number and their names. -/
theorem entry_eq_outlined (above : List Field) (s : Selection) :
    Pending.entry ⟨above.length, above.map Field.responseName, s⟩ =
      Located.outlined ⟨above, s⟩ := by
  cases s <;> rfl

theorem entries_eq_map_located (above : List Field) (s : Selection) :
    s.entries above.length (above.map Field.responseName) =
      (s.located above).map Located.outlined := by
  induction s using Selection.inductOn generalizing above with
  | leaf f => exact congrArg (fun e => [e]) (entry_eq_outlined above (.leaf f))
  | verbatim node => exact congrArg (fun e => [e]) (entry_eq_outlined above (.verbatim node))
  | branch f children ih =>
    have hdepth : above.length + 1 = (above ++ [f]).length := by rw [List.length_append]; rfl
    have hpath : above.map Field.responseName ++ [f.responseName] =
        (above ++ [f]).map Field.responseName := by rw [List.map_append]; rfl
    rw [entries, entry_eq_outlined, listEntries_eq_flatMap, hdepth, hpath, located_branch,
      List.map_cons, List.map_flatMap]
    exact congrArg (_ :: ·) (List.flatMap_congr fun s hs => ih s hs (above ++ [f]))

theorem length_flatMap_located {ss : List Selection}
    (h : ∀ s ∈ ss, (s.located above).length = s.count) :
    (ss.flatMap (located above)).length = countAll ss := by
  induction ss with
  | nil => rfl
  | cons s ss ih =>
    rw [List.forall_mem_cons] at h
    rw [List.flatMap_cons, List.length_append, countAll, h.1, ih h.2]

theorem length_located (above : List Field) (s : Selection) :
    (s.located above).length = s.count := by
  induction s using Selection.inductOn generalizing above with
  | leaf f | verbatim node => rfl
  | branch f children ih =>
    rw [located_branch, List.length_cons, length_flatMap_located fun s hs => ih s hs (above ++ [f]),
      count, Nat.add_comm]

end Selection

namespace Document

theorem outline_eq_map_located (d : Document) : d.outline = d.located.map Located.outlined := by
  rw [outline_eq_entries, located, Selection.listEntries_eq_flatMap,
    Selection.listLocated_eq_flatMap, List.map_flatMap]
  exact List.flatMap_congr fun s _ => Selection.entries_eq_map_located [] s

theorem length_located (d : Document) :
    d.located.length = Selection.countAll d.operation.selections := by
  rw [located, Selection.listLocated_eq_flatMap]
  exact Selection.length_flatMap_located fun s _ => s.length_located []

/-- The outline has one entry for each selection, in the order in which the selections are written.
The entry of a field has a path that is one name longer than the field is deep. -/
theorem outline_eq_preorder (d : Document) :
    d.outline = d.located.map Located.outlined ∧
      d.outline.length = Selection.countAll d.operation.selections ∧
      ∀ depth name path argumentNames hasChildren,
        .field depth name path argumentNames hasChildren ∈ d.outline →
          path.length = depth + 1 := by
  refine ⟨d.outline_eq_map_located, ?_, ?_⟩
  · rw [outline_eq_map_located, List.length_map, length_located]
  · intro depth name path argumentNames hasChildren hmem
    rw [outline_eq_map_located, List.mem_map] at hmem
    obtain ⟨⟨above, s⟩, -, houtlined⟩ := hmem
    cases s with
    | leaf f | branch f children =>
      obtain ⟨rfl, -, rfl, -⟩ := OutlineEntry.field.inj houtlined
      rw [List.length_append, Located.path, List.length_map]
      rfl
    | verbatim node => contradiction

/-- A user with a renamed friend, a spread fragment behind it and another field behind the user. -/
private def friendOfUser : Document where
  operation :=
    { name := none
      definitions := []
      directives := []
      selections :=
        [.branch ⟨none, "user", [⟨"id", .int 1⟩], []⟩
          [.branch ⟨some "friend", "bestFriend", [], []⟩ [.leaf ⟨none, "name", [], []⟩],
            .verbatim ⟨.fragmentSpread, "...Extra"⟩],
          .leaf ⟨none, "version", [], []⟩] }
  auxiliary := []

theorem outline_eq_preorder_friendOfUser :
    .field 2 "name" ["user", "friend", "name"] [] false ∈ friendOfUser.outline ∧
      ["user", "friend", "name"].length = 2 + 1 := by
  have hmem : .field 2 "name" ["user", "friend", "name"] [] false ∈ friendOfUser.outline := by
    rw [outline_eq_entries]
    decide
  exact ⟨hmem, friendOfUser.outline_eq_preorder.2.2 2 "name" _ [] false hmem⟩

end Document

end QueryCraft
