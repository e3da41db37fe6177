import QueryCraft.Proofs.Synthesis.Building
import QueryCraft.Proofs.Synthesis.Conversion
import QueryCraft.Proofs.Synthesis.Numbering

/-!
The variables of a synthesized query. Each one is defined once, and the arguments of the query refer
to no other variables.
-/

namespace QueryCraft

/-- Whether an argument is bound to one of the variables. -/
def Argument.isBoundIn (names : List String) (a : Argument) : Prop :=
  ∃ x ∈ names, a.value = .var x

namespace Synthesis

/-- The names given out are those of the definitions, all different, and the arguments of the
visited fields are bound to such variables. -/
structure State.Scoped (st : State) : Prop where
  names : st.names.taken = (st.definitions.map VariableDefinition.name).reverse
  nodup : st.names.taken.Nodup
  bound : ∀ v ∈ st.visits, ∀ a ∈ v.head.arguments, a.isBoundIn st.names.taken

namespace State.Scoped

variable {st st' : State}

theorem initial : State.initial.Scoped :=
  ⟨rfl, List.nodup_nil, nofun⟩

/-- Binding a parameter defines a new variable and leaves the others. -/
theorem bind (h : st.Scoped) (p : Schema.Parameter) :
    (st.bind p).2.Scoped ∧ (st.bind p).1.isBoundIn (st.bind p).2.names.taken ∧
      st.names.taken ⊆ (st.bind p).2.names.taken := by
  have htaken : (st.bind p).2.names.taken = (st.names.allocate p.name).1 :: st.names.taken :=
    st.names.taken_allocate p.name
  refine ⟨⟨?_, ?_, ?_⟩, ?_, ?_⟩
  · rw [htaken, h.names]
    simp [State.bind]
  · rw [htaken, List.nodup_cons]
    exact ⟨st.names.allocate_fresh p.name, h.nodup⟩
  · intro v hv a ha
    obtain ⟨x, hx, hvalue⟩ := h.bound v hv a ha
    rw [htaken]
    exact ⟨x, List.mem_cons_of_mem _ hx, hvalue⟩
  · rw [htaken]
    exact ⟨_, List.mem_cons_self, rfl⟩
  · rw [htaken]
    exact List.subset_cons_self _ _

theorem bindAll (h : st.Scoped) (ps : List Schema.Parameter) :
    (st.bindAll ps).2.Scoped ∧
      (∀ a ∈ (st.bindAll ps).1, a.isBoundIn (st.bindAll ps).2.names.taken) ∧
      st.names.taken ⊆ (st.bindAll ps).2.names.taken := by
  induction ps generalizing st with
  | nil => exact ⟨h, nofun, fun _ hx => hx⟩
  | cons p ps ih =>
    obtain ⟨hp, ⟨x, hx, hvalue⟩, hsub⟩ := h.bind p
    obtain ⟨hps, hbound, hsub'⟩ := ih hp
    refine ⟨hps, ?_, fun _ hy => hsub' (hsub hy)⟩
    simp only [State.bindAll, List.forall_mem_cons]
    exact ⟨⟨x, hsub' hx, hvalue⟩, hbound⟩

theorem record (h : st.Scoped) {head : TreeHead} {extent : Extent}
    (hhead : ∀ a ∈ head.arguments, a.isBoundIn st.names.taken) :
    (st.record head extent).Scoped := by
  refine ⟨h.names, h.nodup, ?_⟩
  simp only [State.record, List.forall_mem_cons]
  exact ⟨hhead, h.bound⟩

/-- One visit keeps the invariant. -/
theorem visit {s : Schema} {config : Config} {p : Pending} {below : List Pending} (h : st.Scoped)
    (hvisit : Synthesis.visit s config st p = .ok (st', below)) : st'.Scoped := by
  obtain ⟨o, -, rfl, -⟩ := visit_ok hvisit
  obtain ⟨hbound, hargs, -⟩ := h.bindAll (p.parameters config)
  exact hbound.record hargs

/-- A whole walk keeps the invariant. -/
theorem walk {s : Schema} {config : Config} {pending : List Pending} (h : st.Scoped)
    (hwalk : Synthesis.walk s config st pending = .ok st') : st'.Scoped := by
  induction st, pending using Synthesis.walk.induct s config with
  | case1 st =>
    rw [Synthesis.walk] at hwalk
    obtain rfl := Except.ok.inj hwalk
    exact h
  | case2 st p rest e herror =>
    rw [walk_cons, herror] at hwalk
    contradiction
  | case3 st p rest st'' below hvisit _ ih =>
    rw [walk_cons, hvisit] at hwalk
    exact ih (h.visit hvisit) hwalk

end State.Scoped

theorem Visit.forall_push {P : TreeHead → Prop} {v : Visit} {trees : List SelectionTree}
    (hv : P v.head) (htrees : ∀ t ∈ trees, ∀ h ∈ t.heads, P h) :
    ∀ t ∈ Visit.push trees v, ∀ h ∈ t.heads, P h := by
  unfold Visit.push
  split
  · exact List.forall_mem_cons.mpr ⟨List.forall_mem_singleton.mpr hv, htrees⟩
  · exact List.forall_mem_cons.mpr ⟨List.forall_mem_singleton.mpr hv, htrees⟩
  · next arity _ =>
    refine List.forall_mem_cons.mpr ⟨?_, fun t ht => htrees t (List.mem_of_mem_drop ht)⟩
    rw [SelectionTree.heads, SelectionTree.headsOf_eq_flatMap, List.forall_mem_cons,
      List.forall_mem_flatMap]
    exact ⟨hv, fun t ht => htrees t (List.mem_of_mem_take ht)⟩

/-- The fields of assembled trees are those visited. -/
theorem forall_assemble {P : TreeHead → Prop} {visits : List Visit} (h : ∀ v ∈ visits, P v.head) :
    ∀ t ∈ assembleVisits visits, ∀ h ∈ t.heads, P h := by
  have hfold (trees : List SelectionTree) (htrees : ∀ t ∈ trees, ∀ h ∈ t.heads, P h) :
      ∀ t ∈ visits.foldl Visit.push trees, ∀ h ∈ t.heads, P h := by
    induction visits generalizing trees with
    | nil => exact htrees
    | cons v vs ih =>
      rw [List.forall_mem_cons] at h
      exact ih h.2 _ (Visit.forall_push h.1 htrees)
  exact hfold [] nofun

/-- The fields of the query that a walk ends with are those visited, or the root field alone. -/
theorem forall_heads_query {P : TreeHead → Prop} {st : State} (config : Config) (f : Schema.Field)
    (hroot : P ⟨f.name, []⟩) (h : ∀ v ∈ st.visits, P v.head) :
    ∀ h ∈ (config.query f st).root.heads, P h := by
  have htrees := forall_assemble h
  rw [Config.query]
  cases hassemble : assembleVisits st.visits with
  | nil => exact List.forall_mem_singleton.mpr hroot
  | cons t ts =>
    rw [hassemble] at htrees
    exact htrees t List.mem_cons_self

/-- The query of a walk defines distinct variables, and its arguments are bound to them. -/
theorem State.Scoped.query {st : State} (h : st.Scoped) (config : Config) (f : Schema.Field) :
    ((config.query f st).definitions.map VariableDefinition.name).Nodup ∧
      ∀ a ∈ (config.query f st).root.allArguments,
        a.isBoundIn ((config.query f st).definitions.map VariableDefinition.name) := by
  have hnames : st.definitions.map VariableDefinition.name = st.names.taken.reverse := by
    rw [h.names, List.reverse_reverse]
  constructor
  · rw [Config.query, hnames]
    exact (List.reverse_perm _).nodup_iff.mpr h.nodup
  · intro a ha
    have hheads := forall_heads_query config f
      (P := fun head => ∀ a ∈ head.arguments, a.isBoundIn st.names.taken) (by simp) h.bound
    rw [SelectionTree.allArguments, List.mem_flatMap] at ha
    obtain ⟨head, hhead, ha⟩ := ha
    have hbound : a.isBoundIn st.names.taken := hheads head hhead a ha
    obtain ⟨x, hx, hvalue⟩ := hbound
    refine ⟨x, ?_, hvalue⟩
    rw [Config.query, hnames]
    exact List.mem_reverse.mpr hx

end Synthesis

end QueryCraft
