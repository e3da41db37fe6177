import QueryCraft.Proofs.Document.References
import QueryCraft.Proofs.Edit.Binding

/-!
Binding arguments to a new variable as a renaming. Where the arguments of one name are all that
refers to a variable, they take its definition along to the new one, and back again.
-/

namespace QueryCraft

/-- `y` in the place of `x`, where the argument is bound to `x`. -/
def Argument.renamed (x y : String) (a : Argument) : Argument :=
  match a.value with
  | .var z => if z = x then { a with value := .var y } else a
  | _ => a

/-- The definition under the name `y`, if it is that of `x`. -/
def VariableDefinition.renamed (x y : String) (d : VariableDefinition) : VariableDefinition :=
  if d.name = x then { d with name := y } else d

/-- The document with `y` in the place of `x`, in the arguments that are bound to `x` and in its
definition. -/
def Document.renamed (x y : String) (d : Document) : Document :=
  d.map (Argument.renamed x y) (VariableDefinition.renamed x y)

/-- The arguments of the given name, of which there are some, are all bound to `x`. The variable is
defined once, and nothing else refers to it. -/
structure Document.BindsOnly (name x : String) (d : Document) : Prop where
  occurs : ∃ a ∈ d.operation.allArguments, a.name = name
  bound : ∀ a ∈ d.operation.allArguments, a.name = name → a.value = .var x
  others : ∀ a ∈ d.operation.allArguments, a.name ≠ name → a.value.mentions x = false
  nodes : ∀ node ∈ d.verbatims, node.mentions x = false
  once : (d.operation.definitions.map VariableDefinition.name).count x = 1

/-- The variable `y` is neither defined nor referred to. -/
structure Document.IsFresh (y : String) (d : Document) : Prop where
  undefined : ∀ w ∈ d.operation.definitions, w.name ≠ y
  unreferred : ¬d.Refers y

namespace Argument

variable {x y : String} {a : Argument}

theorem name_renamed (x y : String) (a : Argument) : (a.renamed x y).name = a.name := by
  unfold renamed
  split
  · split <;> rfl
  · rfl

theorem renamed_of_bound (h : a.value = .var x) : a.renamed x y = { a with value := .var y } := by
  simp [renamed, h]

theorem renamed_of_ne (h : a.value ≠ .var x) : a.renamed x y = a := by
  unfold renamed
  split
  · next z hz => exact if_neg fun (hx : z = x) => h (hx ▸ hz)
  · rfl

theorem renamed_of_not_mentions (h : a.value.mentions x = false) : a.renamed x y = a := by
  refine renamed_of_ne fun hx => ?_
  simp [hx, Value.mentions] at h

theorem renamed_renamed (h : a.value ≠ .var y) : (a.renamed x y).renamed y x = a := by
  by_cases hx : a.value = .var x
  · rw [renamed_of_bound hx, renamed_of_bound rfl, ← hx]
  · rw [renamed_of_ne hx, renamed_of_ne h]

end Argument

namespace VariableDefinition

variable {x y : String} {d : VariableDefinition} {ds : List VariableDefinition}

theorem renamed_of_ne (h : d.name ≠ x) : d.renamed x y = d :=
  if_neg h

theorem name_renamed_eq_iff (h : d.name ≠ y) : (d.renamed x y).name = y ↔ d.name = x := by
  by_cases hx : d.name = x
  · simp [renamed, hx]
  · rw [renamed_of_ne hx]
    exact iff_of_false h hx

theorem renamed_renamed (h : d.name ≠ y) : (d.renamed x y).renamed y x = d := by
  by_cases hx : d.name = x
  · simp [renamed, ← hx]
  · rw [renamed_of_ne hx, renamed_of_ne h]

/-- The only definition of an orphan is taken over where it stands. -/
theorem takeOver_of_count (h : (ds.map name).count x = 1) :
    takeOver y (· == x) false ds = some (ds.map (renamed x y)) := by
  induction ds with
  | nil => simp at h
  | cons d ds ih =>
    rw [List.map_cons, takeOver]
    by_cases hx : d.name = x
    · have hrest : ∀ e ∈ ds, e.name ≠ x := by
        rw [List.map_cons, hx, List.count_cons_self, Nat.add_eq_right, List.count_eq_zero] at h
        intro e he hname
        exact h (hname ▸ List.mem_map_of_mem he)
      have hkept : takeOver y (· == x) true ds = some ds :=
        takeOver_of_forall fun e he => beq_eq_false_iff_ne.mpr (hrest e he)
      have hmap : ds.map (renamed x y) = ds :=
        (List.map_congr_left fun e he => renamed_of_ne (hrest e he)).trans (List.map_id ds)
      simp [hx, hkept, hmap, renamed]
    · rw [List.map_cons, List.count_cons_of_ne hx] at h
      simp [hx, ih h, renamed]

end VariableDefinition

namespace Document

variable {d : Document} {name x y : String}

theorem allArguments_renamed (x y : String) (d : Document) :
    (d.renamed x y).operation.allArguments =
      d.operation.allArguments.map (Argument.renamed x y) :=
  Operation.allArguments_map _ _ _

/-- Renaming back, from a variable that the document did not have. -/
theorem renamed_renamed (h : d.IsFresh y) : (d.renamed x y).renamed y x = d := by
  rw [renamed, renamed, map_map]
  refine map_eq_self (fun a ha => ?_) fun w hw => ?_
  · refine Argument.renamed_renamed fun hvalue => h.unreferred (.inl ⟨a, ha, ?_⟩)
    simp [hvalue, Value.mentions]
  · exact VariableDefinition.renamed_renamed (h.undefined w hw)

theorem BindsOnly.ne (h : d.BindsOnly name x) (hfresh : d.IsFresh y) : x ≠ y := by
  rintro rfl
  obtain ⟨a, ha, hname⟩ := h.occurs
  refine hfresh.unreferred (.inl ⟨a, ha, ?_⟩)
  simp [h.bound a ha hname, Value.mentions]

/-- Binding the arguments is renaming their variable. -/
theorem BindsOnly.rebind_eq_renamed (h : d.BindsOnly name x) {a : Argument}
    (ha : a ∈ d.operation.allArguments) : a.rebind name y = a.renamed x y := by
  by_cases hname : a.name = name
  · rw [Argument.rebind, if_pos hname, Argument.renamed_of_bound (h.bound a ha hname)]
  · rw [Argument.rebind, if_neg hname, Argument.renamed_of_not_mentions (h.others a ha hname)]

/-- No argument is left that has the variable. -/
theorem BindsOnly.not_refers_renamed (h : d.BindsOnly name x) (hne : x ≠ y) :
    ¬(d.renamed x y).Refers x := by
  rintro (⟨b, hb, hmentions⟩ | ⟨node, hnode, hmentions⟩)
  · rw [allArguments_renamed] at hb
    obtain ⟨a, ha, rfl⟩ := List.mem_map.mp hb
    by_cases hname : a.name = name
    · rw [Argument.renamed_of_bound (h.bound a ha hname)] at hmentions
      exact hne.symm (by simpa [Value.mentions] using hmentions)
    · have hother := h.others a ha hname
      rw [Argument.renamed_of_not_mentions hother, hother] at hmentions
      contradiction
  · rw [renamed, verbatims_map] at hnode
    rw [h.nodes node hnode] at hmentions
    contradiction

/-- The variable that is renamed is the only one that becomes free. -/
theorem BindsOnly.isFreed_eq (h : d.BindsOnly name x) (hne : x ≠ y) :
    d.isFreed name y = (· == x) := by
  funext z
  have hbound : (d.operation.boundVariables name).contains z = (z == x) := by
    rw [Bool.eq_iff_iff, List.contains_iff_mem, Operation.mem_boundVariables, beq_iff_eq]
    constructor
    · rintro ⟨a, ha, hname, hvalue⟩
      exact (Value.var.inj ((h.bound a ha hname).symm.trans hvalue)).symm
    · rintro rfl
      obtain ⟨a, ha, hname⟩ := h.occurs
      exact ⟨a, ha, hname, h.bound a ha hname⟩
  have hmap : d.map (Argument.rebind name y) id = d.map (Argument.renamed x y) id :=
    map_congr (fun a ha => h.rebind_eq_renamed ha) fun _ _ => rfl
  have hfree : (d.map (Argument.rebind name y) id).mentions x = false := by
    have hsame : (d.map (Argument.renamed x y) id).mentions x = (d.renamed x y).mentions x := rfl
    rw [hmap, hsame, ← Bool.not_eq_true, mentions_iff_refers]
    exact h.not_refers_renamed hne
  rw [isFreed, hbound]
  by_cases hz : z = x
  · simp [hz, hne, hfree]
  · rw [beq_eq_false_iff_ne.mpr hz, Bool.false_and, Bool.false_and]

theorem BindsOnly.setArgument_eq (h : d.BindsOnly name x) (hfresh : d.IsFresh y) :
    d.setArgument name (.var y) = .ok (d.renamed x y) := by
  have hundefined : (d.operation.definition? y).isSome = false := by
    rw [← Bool.not_eq_true, Operation.definition?_isSome]
    rintro ⟨w, hw, hname⟩
    exact hfresh.undefined w hw hname
  rw [setArgument_var, rebind_eq h.occurs, h.isFreed_eq (h.ne hfresh), hundefined,
    VariableDefinition.takeOver_of_count h.once]
  have hmap : d.map (Argument.rebind name y) (VariableDefinition.renamed x y) = d.renamed x y :=
    map_congr (fun a ha => h.rebind_eq_renamed ha) fun _ _ => rfl
  exact congrArg Except.ok hmap

/-- In the renamed document the new variable is what the old one was. -/
theorem BindsOnly.renamed (h : d.BindsOnly name x) (hfresh : d.IsFresh y) :
    (d.renamed x y).BindsOnly name y := by
  constructor
  case occurs =>
    obtain ⟨a, ha, hname⟩ := h.occurs
    rw [allArguments_renamed]
    exact ⟨_, List.mem_map_of_mem ha, (Argument.name_renamed x y a).trans hname⟩
  case bound =>
    rw [allArguments_renamed, List.forall_mem_map]
    intro a ha hname
    rw [Argument.name_renamed] at hname
    rw [Argument.renamed_of_bound (h.bound a ha hname)]
  case others =>
    rw [allArguments_renamed, List.forall_mem_map]
    intro a ha hname
    rw [Argument.name_renamed] at hname
    rw [Argument.renamed_of_not_mentions (h.others a ha hname), ← Bool.not_eq_true]
    exact fun hmentions => hfresh.unreferred (.inl ⟨a, ha, hmentions⟩)
  case nodes =>
    rw [Document.renamed, verbatims_map]
    intro node hnode
    rw [← Bool.not_eq_true]
    exact fun hmentions => hfresh.unreferred (.inr ⟨node, hnode, hmentions⟩)
  case once =>
    have hcount : ((d.renamed x y).operation.definitions.map VariableDefinition.name).count y =
        (d.operation.definitions.map VariableDefinition.name).count x := by
      rw [Document.renamed, map, Operation.map, List.map_map, List.count_eq_countP,
        List.count_eq_countP, List.countP_map, List.countP_map]
      refine List.countP_congr fun w hw => ?_
      simpa using VariableDefinition.name_renamed_eq_iff (hfresh.undefined w hw)
    rw [hcount, h.once]

/-- In the renamed document the old variable is fresh. -/
theorem BindsOnly.isFresh_renamed (h : d.BindsOnly name x) (hne : x ≠ y) :
    (d.renamed x y).IsFresh x := by
  refine ⟨fun w hw hname => ?_, h.not_refers_renamed hne⟩
  obtain ⟨u, -, rfl⟩ := List.mem_map.mp hw
  by_cases hx : u.name = x
  · rw [VariableDefinition.renamed, if_pos hx] at hname
    exact hne hname.symm
  · rw [VariableDefinition.renamed_of_ne hx] at hname
    exact hx hname

/-- Where the arguments of one name are all that refers to a variable, binding them to a fresh one
renames the variable, and binding them to the old one again gives the document back. -/
theorem setArgument_renames (h : d.BindsOnly name x) (hfresh : d.IsFresh y) :
    d.setArgument name (.var y) = .ok (d.renamed x y) ∧
      (d.renamed x y).setArgument name (.var x) = .ok d := by
  refine ⟨h.setArgument_eq hfresh, ?_⟩
  have hback := (h.renamed hfresh).setArgument_eq (h.isFresh_renamed (h.ne hfresh))
  rwa [renamed_renamed hfresh] at hback

/-- An argument in each place that can hold one, bound to the variable that is given. Its definition
stands between others, one of which only a fragment refers to. -/
private def threads (x : String) : Document where
  operation :=
    { name := some "Threads"
      definitions :=
        [⟨"ids", .list (.named "ID" false) true, none⟩, ⟨x, .named "Int" true, some (.int 20)⟩,
          ⟨"nn", .named "Int" true, none⟩]
      directives := [⟨"page", [⟨"first", .var x⟩]⟩]
      selections :=
        [.branch ⟨none, "threads", [⟨"among", .list [.var "ids"]⟩, ⟨"first", .var x⟩], []⟩
          [.leaf ⟨none, "posts", [], [⟨"cap", [⟨"first", .var x⟩]⟩]⟩,
            .verbatim ⟨.fragmentSpread, "...F"⟩]] }
  auxiliary := [⟨.fragmentDefinition, "fragment F on Thread \x7b likes(first: $nn) \x7d"⟩]

theorem setArgument_renames_threads :
    (threads "n").setArgument "first" (.var "count") = .ok (threads "count") ∧
      (threads "count").setArgument "first" (.var "n") = .ok (threads "n") := by
  have hargs : (threads "n").operation.allArguments =
      [⟨"first", .var "n"⟩, ⟨"among", .list [.var "ids"]⟩, ⟨"first", .var "n"⟩,
        ⟨"first", .var "n"⟩] := rfl
  have hbinds : (threads "n").BindsOnly "first" "n" := by
    refine ⟨?_, ?_, ?_, by decide, by decide⟩
    · exact ⟨⟨"first", .var "n"⟩, .head _, rfl⟩
    · simp [hargs]
    · simp [hargs, Value.mentions, Value.itemsMention]
  have hfresh : (threads "n").IsFresh "count" := ⟨by decide, by decide⟩
  exact setArgument_renames hbinds hfresh

end Document

end QueryCraft
