import QueryCraft.Proofs.Executable.Taking
import QueryCraft.Proofs.Schema.Building
import QueryCraft.Proofs.Synthesis.Variables

/-!
The names of a synthesized query. Those of its fields and arguments come from the schema, and those
of its variables from parameters, perhaps with a number behind them.
-/

namespace QueryCraft

theorem Text.isName_append_digits {name : String} (h : Text.isName name = true) (n : Nat) :
    Text.isName (name ++ String.ofList (Number.natDigits n)) = true := by
  unfold Text.isName at h ⊢
  rw [String.toList_append, String.toList_ofList]
  split at h
  · contradiction
  · next c cs hcs =>
    rw [Bool.and_eq_true] at h
    have hdigits : (Number.natDigits n).all Text.isNamePart = true :=
      List.all_eq_true.mpr fun d hd =>
        Lexeme.isNamePart_of_isDigit (Number.isDigit_of_mem_natDigits hd)
    simp [hcs, h, hdigits]

/-- A variable that is named after a name has one. -/
theorem VariableNames.isName_allocate (names : VariableNames) {name : String}
    (h : Text.isName name = true) : Text.isName (names.allocate name).1 = true := by
  unfold allocate
  split
  · exact Text.isName_append_digits h _
  · exact h

/-- A field of a tree whose names are names. -/
structure TreeHead.Formed (h : TreeHead) : Prop where
  name : Text.isName h.name = true
  arguments : ∀ a ∈ h.arguments, a.Formed false

namespace Schema

variable {s : Schema}

def Child.Formed : Child → Prop
  | .field f => f.Formed
  | .typename => True

theorem Child.Formed.name {c : Child} (h : c.Formed) : Text.isName c.name = true := by
  cases c with
  | field f => exact Field.Formed.name h
  | typename => decide

theorem Child.Formed.parameters {c : Child} (h : c.Formed) : ∀ p ∈ c.parameters, p.Formed := by
  cases c with
  | field f => exact Field.Formed.parameters h
  | typename => nofun

theorem NamedType.formed_of_selectable {t : NamedType} (h : t.shape.Formed) :
    ∀ c ∈ t.selectable, c.Formed := by
  unfold NamedType.selectable
  cases hshape : t.shape with
  | object interfaces fields | interface interfaces fields =>
    rw [hshape] at h
    exact List.forall_mem_map.mpr h
  | union members => exact List.forall_mem_singleton.mpr trivial
  | _ => nofun

theorem Formed.rootFields {fields : List Field} (h : s.Formed) (hroot : s.rootFields = .ok fields) :
    ∀ f ∈ fields, f.Formed := by
  unfold Schema.rootFields at hroot
  split at hroot
  · next hquery =>
    obtain rfl := Except.ok.inj hroot
    obtain ⟨name, -, hfind⟩ := Option.bind_eq_some_iff.mp hquery
    exact h _ (List.mem_of_find?_eq_some hfind)
  · contradiction

end Schema

namespace Synthesis

theorem Pending.formed_parameters {p : Pending} (h : p.child.Formed) (config : Config) :
    ∀ parameter ∈ p.parameters config, parameter.Formed := by
  unfold parameters
  split
  · exact h.parameters
  · nofun

/-- What has been visited and defined is made of names. -/
structure State.Formed (st : State) : Prop where
  definitions : ∀ d ∈ st.definitions, d.Formed
  visits : ∀ v ∈ st.visits, v.head.Formed

namespace State.Formed

variable {st st' : State} {s : Schema} {config : Config}

theorem initial : State.initial.Formed :=
  ⟨nofun, nofun⟩

theorem bind (h : st.Formed) {p : Schema.Parameter} (hp : p.Formed) :
    (st.bind p).2.Formed ∧ (st.bind p).1.Formed false := by
  have hname := st.names.isName_allocate hp.name
  refine ⟨⟨?_, h.visits⟩, hp.name, hname, rfl, nofun⟩
  simp only [State.bind, List.forall_mem_append, List.forall_mem_singleton]
  exact ⟨h.definitions, hname, hp.type, hp.default⟩

theorem bindAll (h : st.Formed) {ps : List Schema.Parameter} (hps : ∀ p ∈ ps, p.Formed) :
    (st.bindAll ps).2.Formed ∧ ∀ a ∈ (st.bindAll ps).1, a.Formed false := by
  induction ps generalizing st with
  | nil => exact ⟨h, nofun⟩
  | cons p ps ih =>
    rw [List.forall_mem_cons] at hps
    obtain ⟨hst, ha⟩ := h.bind hps.1
    obtain ⟨hst', has⟩ := ih hst hps.2
    exact ⟨hst', List.forall_mem_cons.mpr ⟨ha, has⟩⟩

theorem record (h : st.Formed) {head : TreeHead} {extent : Extent} (hhead : head.Formed) :
    (st.record head extent).Formed :=
  ⟨h.definitions, List.forall_mem_cons.mpr ⟨hhead, h.visits⟩⟩

/-- One visit keeps the invariant, and what it finds below the field is well formed. -/
theorem visit {p : Pending} {below : List Pending} (h : st.Formed) (hs : s.Formed)
    (hp : p.child.Formed) (hvisit : Synthesis.visit s config st p = .ok (st', below)) :
    st'.Formed ∧ ∀ q ∈ below, q.child.Formed := by
  obtain ⟨o, hopening, rfl, rfl⟩ := visit_ok hvisit
  obtain ⟨hst, has⟩ := h.bindAll (Pending.formed_parameters hp config)
  refine ⟨hst.record ⟨hp.name, has⟩, ?_⟩
  cases o with
  | leaf => nofun
  | truncated => nofun
  | opens children rest =>
    obtain ⟨f, t, -, ht, ho⟩ := Schema.openingOf_opens hopening
    obtain ⟨rfl, -⟩ := Schema.opening_opens ho
    rw [Pending.ofOpening, List.forall_mem_map]
    exact Schema.NamedType.formed_of_selectable (hs t (Schema.mem_types_of_returnType ht))

/-- A whole walk keeps the invariant. -/
theorem walk {pending : List Pending} (h : st.Formed) (hs : s.Formed)
    (hpending : ∀ p ∈ pending, p.child.Formed)
    (hwalk : Synthesis.walk s config st pending = .ok st') : st'.Formed := by
  induction st, pending using Synthesis.walk.induct s config with
  | case1 st =>
    rw [Synthesis.walk] at hwalk
    obtain rfl := Except.ok.inj hwalk
    exact h
  | case2 st p rest e herror =>
    rw [walk_cons, herror] at hwalk
    contradiction
  | case3 st p rest st'' below hvisit _ ih =>
    rw [walk_cons, hvisit] at hwalk
    rw [List.forall_mem_cons] at hpending
    obtain ⟨hst, hbelow⟩ := h.visit hs hpending.1 hvisit
    exact ih hst (List.forall_mem_append.mpr ⟨hbelow, hpending.2⟩) hwalk

end State.Formed

end Synthesis

/-- A tree of well-formed fields stands for a printable selection. -/
theorem SelectionTree.formed_toSelection {t : SelectionTree} (h : ∀ head ∈ t.heads, head.Formed) :
    t.toSelection.Formed := by
  have hfield {head : TreeHead} (hhead : head.Formed) : (TreeHead.field head).Formed :=
    ⟨rfl, hhead.name, hhead.arguments, nofun⟩
  rw [toSelection_eq_selected]
  induction t using inductOn with
  | leaf head | truncated head => exact .leaf (hfield (h head List.mem_cons_self))
  | node head children ih =>
    rw [heads, headsOf_eq_flatMap, List.forall_mem_cons, List.forall_mem_flatMap] at h
    rw [selected, selectedAll_eq_map]
    have hchildren : ∀ s ∈ children.map selected, s.Formed :=
      List.forall_mem_map.mpr fun c hc => ih c hc (h.2 c hc)
    cases hmap : children.map selected with
    | nil => exact .leaf (hfield h.1)
    | cons s ss =>
      rw [hmap] at hchildren
      exact .branch (hfield h.1) (by simp) hchildren

/-- A query that is synthesized from a built schema is printable. -/
theorem Schema.IsBuilt.formed_synthesize {s : Schema} {config : Synthesis.Config} {name : String}
    {q : SynthesizedQuery} (h : s.IsBuilt) (hname : config.operationName.all Text.isName = true)
    (hq : s.synthesize config name = .ok q) : q.toDocument.operation.Formed := by
  obtain ⟨fields, f, st, hfields, hfind, hwalk, rfl⟩ := Schema.synthesize_ok hq
  have hroot : f.Formed := h.formed.rootFields hfields f (List.mem_of_find?_eq_some hfind)
  have hst : st.Formed := by
    refine Synthesis.State.Formed.initial.walk h.formed ?_ hwalk
    rw [List.forall_mem_singleton]
    exact hroot
  have hheads := Synthesis.forall_heads_query config f (P := TreeHead.Formed)
    ⟨hroot.name, nofun⟩ hst.visits
  refine Operation.formed hname hst.definitions nofun (by simp [SynthesizedQuery.toDocument]) ?_
  exact List.forall_mem_singleton.mpr (SelectionTree.formed_toSelection hheads)

end QueryCraft
