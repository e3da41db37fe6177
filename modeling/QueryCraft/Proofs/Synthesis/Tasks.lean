import QueryCraft.Synthesis

/-!
The conversion of a synthesized tree. What is left to do and what is converted are two stacks, and
the invariant says which selections belong to which task: a field always finds the selections of
its children on top, and in the end there is the selection of the whole tree and nothing else.
-/

namespace QueryCraft

namespace SelectionTree

mutual

/-- The selection that a tree stands for, by recursion. -/
def selected : SelectionTree → Selection
  | .leaf h | .truncated h => .leaf (TreeHead.field h)
  | .node h children => select h (selectedAll children)

def selectedAll : List SelectionTree → List Selection
  | [] => []
  | t :: ts => selected t :: selectedAll ts

end

theorem selectedAll_eq_map (ts : List SelectionTree) : selectedAll ts = ts.map selected := by
  induction ts with
  | nil => rfl
  | cons t ts ih => simp [selectedAll, ih]

theorem selected_eq_select (t : SelectionTree) :
    t.selected = select t.head (t.children.map selected) := by
  cases t with
  | leaf h => rfl
  | truncated h => rfl
  | node h children => rw [selected, selectedAll_eq_map, head, SelectionTree.children]

variable {root t : SelectionTree} {ts : List SelectionTree} {tasks : List Task}
  {goal done : List Selection}

/-- The tasks and the selections that a conversion comes to. It starts with the whole tree, and each
turn works on the first task. A turn that finishes a field needs a selection for each child. -/
inductive Task.Reached (root : SelectionTree) : List Task → List Selection → Prop where
  | start : Reached root [.convert root] []
  | convert {t : SelectionTree} {tasks : List Task} {done : List Selection}
      (reached : Reached root (.convert t :: tasks) done) :
      Reached root (t.children.map .convert ++ .finish t :: tasks) done
  | finish {t : SelectionTree} {tasks : List Task} {done : List Selection}
      (reached : Reached root (.finish t :: tasks) done)
      (enough : t.children.length ≤ done.length) :
      Reached root tasks
        (select t.head (done.take t.children.length).reverse :: done.drop t.children.length)

/-- The tasks make `goal` of what is converted. For each tree to convert its selection is added; for
each field to finish the selections of its children are there, the last one on top. -/
def Task.LeadTo (goal : List Selection) : List Task → List Selection → Prop
  | [], done => done = goal
  | .convert t :: tasks, done => LeadTo goal tasks (t.selected :: done)
  | .finish t :: tasks, done =>
    ∃ others, done = (t.children.map selected).reverse ++ others ∧
      LeadTo goal tasks (t.selected :: others)

namespace Task

theorem leadTo_convertAll_iff :
    LeadTo goal (ts.map .convert ++ tasks) done ↔
      LeadTo goal tasks ((ts.map selected).reverse ++ done) := by
  induction ts generalizing done with
  | nil => rfl
  | cons t ts ih =>
    have hfirst : LeadTo goal ((t :: ts).map .convert ++ tasks) done ↔
        LeadTo goal (ts.map .convert ++ tasks) (t.selected :: done) := Iff.rfl
    rw [hfirst, ih, List.map_cons, List.reverse_cons, List.append_assoc, List.singleton_append]

theorem LeadTo.convert (h : LeadTo goal (.convert t :: tasks) done) :
    LeadTo goal (t.children.map .convert ++ .finish t :: tasks) done :=
  leadTo_convertAll_iff.mpr ⟨done, rfl, h⟩

/-- On top of the converted selections are those of the children, and as many are taken. -/
theorem LeadTo.finish (h : LeadTo goal (.finish t :: tasks) done) :
    t.children.length ≤ done.length ∧
      (done.take t.children.length).reverse = t.children.map selected ∧
      LeadTo goal tasks
        (select t.head (done.take t.children.length).reverse :: done.drop t.children.length) := by
  obtain ⟨others, rfl, hothers⟩ := h
  have hlength : (t.children.map selected).reverse.length = t.children.length := by
    rw [List.length_reverse, List.length_map]
  have htaken : (((t.children.map selected).reverse ++ others).take t.children.length).reverse =
      t.children.map selected := by
    rw [List.take_left' hlength, List.reverse_reverse]
  refine ⟨?_, htaken, ?_⟩
  · rw [List.length_append, hlength]
    exact Nat.le_add_right _ _
  · rw [htaken, List.drop_left' hlength, ← selected_eq_select]
    exact hothers

namespace Reached

/-- Whatever a conversion comes to, what is left to do makes the selection of the whole tree. -/
theorem leadTo (h : Reached root tasks done) : LeadTo [root.selected] tasks done := by
  induction h with
  | start => rfl
  | convert _ ih => exact ih.convert
  | finish _ _ ih => exact ih.finish.2.2

/-- A conversion goes on from each of its states as it does from the start. -/
theorem run_eq (h : Reached root tasks done) :
    Task.run tasks done = Task.run [.convert root] [] := by
  induction h with
  | start => rfl
  | convert _ ih => rw [← ih, Task.run]
  | finish _ enough ih => rw [← ih, Task.run, if_pos enough]

/-- From each of its states a conversion comes to the end, where nothing is left to do. -/
theorem exists_end (h : Reached root tasks done) : ∃ result, Reached root [] result := by
  induction tasks, done using Task.run.induct with
  | case1 done => exact ⟨done, h⟩
  | case2 t tasks done ih => exact ih h.convert
  | case3 t tasks done enough ih => exact ih (h.finish enough)
  | case4 t tasks done hfew => exact absurd h.leadTo.finish.1 hfew

end Reached

end Task

theorem Task.run_convert (t : SelectionTree) : run [.convert t] [] = some [t.selected] := by
  have hstart : Reached t [.convert t] [] := .start
  obtain ⟨result, hresult⟩ := hstart.exists_end
  have hdone : result = [t.selected] := hresult.leadTo
  rw [← hresult.run_eq, run, hdone]

theorem toSelection_eq_selected (t : SelectionTree) : t.toSelection = t.selected := by
  rw [toSelection, Task.run_convert]

/-- A field without children has no selection set, and any other one has the selections of its
children in it, in their order. -/
theorem toSelection_eq_select (t : SelectionTree) :
    t.toSelection = select t.head (t.children.map toSelection) := by
  rw [toSelection_eq_selected, selected_eq_select, funext toSelection_eq_selected]

/-- Whenever a conversion finishes a field, the selections of the children are on top of those that
are converted, so there are never too few. It ends, and then with one selection: the field by its
name and its arguments over the selections of the children, if there are any. -/
theorem run_of_reached (t : SelectionTree) :
    (∀ u tasks done, Task.Reached t (.finish u :: tasks) done →
      u.children.length ≤ done.length ∧
        (done.take u.children.length).reverse = u.children.map toSelection) ∧
    (∀ tasks done, Task.Reached t tasks done → Task.run tasks done = some [t.toSelection]) ∧
    (∀ done, Task.Reached t [] done ↔ done = [t.toSelection]) ∧
    t.toSelection =
      if t.children.isEmpty then
        .leaf ⟨none, t.head.name, t.head.arguments, []⟩
      else
        .branch ⟨none, t.head.name, t.head.arguments, []⟩ (t.children.map toSelection) := by
  have hend {done : List Selection} (h : Task.Reached t [] done) : done = [t.toSelection] := by
    rw [toSelection_eq_selected]
    exact h.leadTo
  refine ⟨fun u tasks done h => ?_, fun tasks done h => ?_, fun done => ⟨hend, ?_⟩, ?_⟩
  · obtain ⟨henough, htaken, -⟩ := h.leadTo.finish
    rw [funext toSelection_eq_selected]
    exact ⟨henough, htaken⟩
  · rw [h.run_eq, Task.run_convert, toSelection_eq_selected]
  · rintro rfl
    have hstart : Task.Reached t [.convert t] [] := .start
    obtain ⟨result, hresult⟩ := hstart.exists_end
    exact hend hresult ▸ hresult
  · rw [toSelection_eq_select]
    cases t.children with
    | nil => rfl
    | cons u us => rfl

/-- A friend below a user, behind a field without children. -/
private def friendTree : SelectionTree :=
  .node ⟨"friend", [⟨"first", .var "first"⟩]⟩ [.leaf ⟨"name", []⟩, .truncated ⟨"posts", []⟩]

private def userTree : SelectionTree :=
  .node ⟨"user", []⟩ [.leaf ⟨"id", []⟩, friendTree]

theorem run_of_reached_userTree :
    ∃ done, Task.Reached userTree [.finish friendTree, .finish userTree] done ∧
      friendTree.children.length ≤ done.length ∧
      Task.run [.finish friendTree, .finish userTree] done = some [userTree.toSelection] := by
  have hstart : Task.Reached userTree [.convert userTree] [] := .start
  have hid := hstart.convert.convert.finish (Nat.zero_le _)
  have hname := hid.convert.convert.finish (Nat.zero_le _)
  have hposts := hname.convert.finish (Nat.zero_le _)
  exact ⟨_, hposts, ((run_of_reached userTree).1 friendTree _ _ hposts).1,
    (run_of_reached userTree).2.1 _ _ hposts⟩

end SelectionTree

end QueryCraft
