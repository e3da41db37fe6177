import QueryCraft.Synthesis.Arena

/-!
The arena of a walk. Parents come before their children, so the way up from a node ends, and going
back from the last node every child is finished before its parent and taken once.
-/

namespace QueryCraft

namespace Synthesis

variable {arena arena' : Array Node} {finished : Array (Option SelectionTree)}
  {indices order : List Nat} {ts : List SelectionTree}

/-- The types that are expanded from an index on the way up, the nearest first. Each is the type
that its field returns. -/
inductive Chain (arena : Array Node) : Option Nat → List String → Prop where
  | top : Chain arena none []
  | step {index : Nat} {node : Node} {f : Schema.Field} {types : List String}
      (found : arena[index]? = some node) (selects : node.field = some f)
      (expands : node.expandedType = some f.type.innermost)
      (before : node.parent.all (· < index) = true)
      (above : Chain arena node.parent types) :
      Chain arena (some index) (f.type.innermost :: types)

namespace Chain

variable {index : Option Nat} {types : List String}

/-- The way up ends, and it meets exactly these types. -/
theorem isExpandedAbove (h : Chain arena index types) (type : String) :
    Synthesis.isExpandedAbove arena type index = some (types.contains type) := by
  induction h with
  | top => rw [Synthesis.isExpandedAbove, List.contains_nil]
  | @step index node f types found selects expands before above ih =>
    rw [Synthesis.isExpandedAbove]
    simp only [found, expands, Option.some.injEq, List.contains_cons]
    by_cases hsame : f.type.innermost = type
    · simp [hsame]
    · have hne : (type == f.type.innermost) = false := beq_false_of_ne (Ne.symm hsame)
      rw [if_neg hsame, if_pos before, ih, hne, Bool.false_or]

/-- The way up leads over expanded nodes only. -/
theorem congr (h : Chain arena index types)
    (hsame : ∀ (i : Nat) (node : Node), arena[i]? = some node → node.expandedType ≠ none →
      arena'[i]? = some node) : Chain arena' index types := by
  induction h with
  | top => exact .top
  | step found selects expands before above ih =>
    exact .step (hsame _ _ found (by simp [expands])) selects expands before ih

end Chain

/-- What a node keeps to: its children come behind it and know it, they are all different, and only
an expanded node has any. -/
structure Node.IsSound (arena : Array Node) (index : Nat) (node : Node) : Prop where
  children : ∀ j ∈ node.children, index < j ∧
    ∃ child, arena[j]? = some child ∧ child.parent = some index
  nodup : node.children.Nodup
  expanded : node.expandedType = none → node.children = []
  truncated : node.truncated = true → node.expandedType = none

theorem Node.IsSound.childless {index : Nat} {node : Node} (hchildren : node.children = [])
    (htruncated : node.truncated = true → node.expandedType = none) :
    node.IsSound arena index where
  children := by
    rw [hchildren]
    exact List.forall_mem_nil _
  nodup := by
    rw [hchildren]
    exact List.nodup_nil
  expanded := fun _ => hchildren
  truncated := htruncated

theorem Node.IsSound.mono {index : Nat} {node : Node} (h : node.IsSound arena index)
    (hparents : ∀ (j : Nat) (child : Node), arena[j]? = some child →
      ∃ child', arena'[j]? = some child' ∧ child'.parent = child.parent) :
    node.IsSound arena' index := by
  refine ⟨fun j hj => ?_, h.nodup, h.expanded, h.truncated⟩
  obtain ⟨hlt, child, hchild, hparent⟩ := h.children j hj
  obtain ⟨child', hchild', hsame⟩ := hparents j child hchild
  exact ⟨hlt, child', hchild', hsame.trans hparent⟩

def WellFormed (arena : Array Node) : Prop :=
  ∀ (index : Nat) (node : Node), arena[index]? = some node → node.IsSound arena index

/-- The nodes at some indices show trees; `order` lists their indices and those below them in the
order of the document. -/
inductive Shows (arena : Array Node) : List Nat → List SelectionTree → List Nat → Prop where
  | nil : Shows arena [] [] []
  | cons {index : Nat} {node : Node} {t : SelectionTree} {indices below behind : List Nat}
      {ts us : List SelectionTree} (found : arena[index]? = some node)
      (children : Shows arena node.children ts below) (tree : node.tree? ts = some t)
      (rest : Shows arena indices us behind) :
      Shows arena (index :: indices) (t :: us) (index :: (below ++ behind))

namespace Shows

theorem congr (h : Shows arena indices ts order) (hsame : ∀ i ∈ order, arena'[i]? = arena[i]?) :
    Shows arena' indices ts order := by
  induction h with
  | nil => exact .nil
  | cons found children tree rest ihChildren ihRest =>
    rw [List.forall_mem_cons, List.forall_mem_append] at hsame
    exact .cons (hsame.1.trans found) (ihChildren hsame.2.1) tree (ihRest hsame.2.2)

theorem unique {us : List SelectionTree} {order' : List Nat} (h : Shows arena indices ts order)
    (h' : Shows arena indices us order') : ts = us ∧ order = order' := by
  induction h generalizing us order' with
  | nil =>
    cases h'
    exact ⟨rfl, rfl⟩
  | cons found children tree rest ihChildren ihRest =>
    cases h' with
    | cons found' children' tree' rest' =>
      obtain rfl := Option.some.inj (found.symm.trans found')
      obtain ⟨rfl, rfl⟩ := ihChildren children'
      obtain ⟨rfl, rfl⟩ := ihRest rest'
      obtain rfl := Option.some.inj (tree.symm.trans tree')
      exact ⟨rfl, rfl⟩

theorem lt_size (h : Shows arena indices ts order) : ∀ i ∈ order, i < arena.size := by
  induction h with
  | nil => exact nofun
  | cons found children tree rest ihChildren ihRest =>
    rw [List.forall_mem_cons, List.forall_mem_append]
    exact ⟨(Array.getElem?_eq_some_iff.mp found).1, ihChildren, ihRest⟩

end Shows

/-- The tree at an index is finished. -/
def IsFinished (arena : Array Node) (finished : Array (Option SelectionTree)) (i : Nat) : Prop :=
  ∃ t order, finished[i]? = some (some t) ∧ Shows arena [i] [t] order

/-- Of finished trees at different indices each can be taken, and no others are. -/
theorem exists_takeTrees (hfinished : ∀ i ∈ indices, IsFinished arena finished i)
    (hnodup : indices.Nodup) :
    ∃ ts rest order, takeTrees finished indices = some (ts, rest) ∧ Shows arena indices ts order ∧
      rest.size = finished.size ∧ ∀ i ∉ indices, rest[i]? = finished[i]? := by
  induction indices generalizing finished with
  | nil => exact ⟨[], finished, [], rfl, .nil, rfl, fun _ _ => rfl⟩
  | cons index indices ih =>
    rw [List.forall_mem_cons] at hfinished
    rw [List.nodup_cons] at hnodup
    obtain ⟨⟨t, first, hfound, hshows⟩, hothers⟩ := hfinished
    have hkept : ∀ i ∈ indices, IsFinished arena (finished.setIfInBounds index none) i := by
      intro i hi
      obtain ⟨u, order, hu, hshows⟩ := hothers i hi
      have hne : index ≠ i := fun heq => hnodup.1 (heq ▸ hi)
      exact ⟨u, order, (Array.getElem?_setIfInBounds_ne hne).trans hu, hshows⟩
    obtain ⟨us, rest, order, htaken, hus, hsize, hsame⟩ := ih hkept hnodup.2
    refine ⟨t :: us, rest, first ++ order, ?_, ?_, ?_, fun i hi => ?_⟩
    · simp [takeTrees, hfound, htaken]
    · cases hshows with
      | cons found children tree rest =>
        cases rest
        rw [List.append_nil]
        exact .cons found children tree hus
    · rw [hsize, Array.size_setIfInBounds]
    · rw [List.mem_cons, not_or] at hi
      rw [hsame i hi.2, Array.getElem?_setIfInBounds_ne (Ne.symm hi.1)]

/-- A sound node has a tree over any trees. -/
theorem Node.IsSound.exists_tree {node : Node} {index : Nat} (h : node.IsSound arena index)
    (ts : List SelectionTree) : ∃ t, node.tree? ts = some t := by
  unfold Node.tree?
  cases hexpanded : node.expandedType with
  | none => cases node.truncated <;> exact ⟨_, rfl⟩
  | some type =>
    cases htruncated : node.truncated with
    | false => exact ⟨_, rfl⟩
    | true => simp [h.truncated htruncated] at hexpanded

theorem Node.IsSound.takeChildren_eq {node : Node} {index : Nat} (h : node.IsSound arena index) :
    takeChildren finished node = takeTrees finished node.children := by
  unfold takeChildren
  split
  · rfl
  · next hnone =>
    rw [h.expanded (Option.not_isSome_iff_eq_none.mp hnone), takeTrees]

/-- No node from the index `n` on has this one as a child, so its tree has not been taken. -/
def IsUntaken (arena : Array Node) (n i : Nat) : Prop :=
  ∀ (parent : Nat) (node : Node), n ≤ parent → arena[parent]? = some node → i ∉ node.children

/-- The trees from the index `n` on are finished, but for those that were taken. -/
structure IsFinishedFrom (arena : Array Node) (n : Nat) (finished : Array (Option SelectionTree)) :
    Prop where
  size : finished.size = arena.size
  untaken : ∀ i, n ≤ i → i < arena.size → IsUntaken arena n i → IsFinished arena finished i

namespace WellFormed

/-- A node is the child of one other at most. -/
theorem untaken_of_child (h : WellFormed arena) {n i : Nat} {node : Node}
    (hnode : arena[n]? = some node) (hi : i ∈ node.children) : IsUntaken arena (n + 1) i := by
  intro parent other hle hother hmem
  obtain ⟨-, child, hchild, hparent⟩ := (h n node hnode).children i hi
  obtain ⟨-, child', hchild', hparent'⟩ := (h parent other hother).children i hmem
  obtain rfl := Option.some.inj (hchild.symm.trans hchild')
  have heq : n = parent := Option.some.inj (hparent.symm.trans hparent')
  omega

/-- Whatever the last nodes are, those in front of them can be finished. -/
theorem exists_finishBelow (h : WellFormed arena) {n : Nat} (hn : n ≤ arena.size)
    (hfinished : IsFinishedFrom arena n finished) :
    ∃ rest, finishBelow arena n finished = some rest ∧ IsFinishedFrom arena 0 rest := by
  induction n generalizing finished with
  | zero => exact ⟨finished, rfl, hfinished⟩
  | succ n ih =>
    have hnode : arena[n]? = some arena[n] := Array.getElem?_eq_getElem hn
    have hsound : arena[n].IsSound arena n := h n _ hnode
    have hchildren : ∀ i ∈ arena[n].children, IsFinished arena finished i := by
      intro i hi
      obtain ⟨hlt, child, hchild, -⟩ := hsound.children i hi
      have hsize : i < arena.size := (Array.getElem?_eq_some_iff.mp hchild).1
      exact hfinished.untaken i hlt hsize (h.untaken_of_child hnode hi)
    obtain ⟨ts, rest, order, htaken, hshows, hsize, hsame⟩ :=
      exists_takeTrees hchildren hsound.nodup
    obtain ⟨t, ht⟩ := hsound.exists_tree ts
    have hnext : IsFinishedFrom arena n (rest.setIfInBounds n (some t)) := by
      constructor
      case size => rw [Array.size_setIfInBounds, hsize, hfinished.size]
      case untaken =>
        intro i hle hlt huntaken
        by_cases heq : n = i
        · subst heq
          refine ⟨t, n :: (order ++ []), ?_, .cons hnode hshows ht .nil⟩
          rw [Array.getElem?_setIfInBounds_self_of_lt]
          rw [hsize, hfinished.size]
          exact hlt
        · obtain ⟨u, order, hu, hshows⟩ := hfinished.untaken i (by omega) hlt
            fun parent node hle => huntaken parent node (by omega)
          refine ⟨u, order, ?_, hshows⟩
          rw [Array.getElem?_setIfInBounds_ne heq, hsame i (huntaken n _ (Nat.le_refl n) hnode), hu]
    obtain ⟨result, hresult, hall⟩ := ih (Nat.le_of_succ_le hn) hnext
    refine ⟨result, ?_, hall⟩
    simp only [finishBelow, hnode, Option.bind_eq_bind, Option.bind_some,
      hsound.takeChildren_eq, htaken, ht]
    exact hresult

/-- Assembly gives the tree that the first node shows. -/
theorem exists_assemble (h : WellFormed arena) (hpos : 0 < arena.size) :
    ∃ t order, assemble arena = some t ∧ Shows arena [0] [t] order := by
  have hnone : IsFinishedFrom arena arena.size (Array.replicate arena.size none) :=
    ⟨Array.size_replicate, fun i hle hlt _ => absurd hlt (Nat.not_lt.mpr hle)⟩
  obtain ⟨rest, hrest, hall⟩ := h.exists_finishBelow (Nat.le_refl _) hnone
  have hroot : IsUntaken arena 0 0 := fun parent node _ hnode hmem =>
    Nat.not_lt_zero parent ((h parent node hnode).children 0 hmem).1
  obtain ⟨t, order, ht, hshows⟩ := hall.untaken 0 (Nat.le_refl 0) hpos hroot
  refine ⟨t, order, ?_, hshows⟩
  simp [assemble, hrest, ht]

end WellFormed

end Synthesis

end QueryCraft
