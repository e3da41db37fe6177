import QueryCraft.Proofs.Document.Reading
import QueryCraft.Proofs.Schema.Building
import QueryCraft.Proofs.Synthesis.Places

/-!
Synthesis ends, and its trees are bounded. Every turn of the loop lowers the number of visits that
the fields to visit can still lead to. A tree is as deep as the bound on the depth allows; without
one no type is expanded twice on the way from the root, nor is the query type.
-/

namespace QueryCraft

namespace Synthesis

variable {s : Schema} {config : Config} {w w' : SchemaWalk} {stack stack' : List Entry}
  {taken : List Nat} {st st' : State} {ps : List Pending} {ts : List SelectionTree}

/-- Turns lead from a point that the loop and the walk are both at to another one, and each of them
lowers the bound on the visits that are left. -/
theorem Follows.turns (h : Follows s config w stack st ps)
    (hturns : Turns s config taken w stack w' stack') :
    ∃ st' ps', Follows s config w' stack' st' ps' ∧ taken.length + bound s ps' ≤ bound s ps := by
  induction hturns generalizing st ps with
  | none => exact ⟨st, ps, h, by simp⟩
  | next turn _ ih =>
    obtain ⟨stNext, psNext, hnext, hlt⟩ := h.next turn
    obtain ⟨st', ps', hend, hle⟩ := ih hnext
    refine ⟨st', ps', hend, ?_⟩
    rw [List.length_cons]
    omega

/-- Above the node of an entry just these types are expanded, as many as its depth tells. The way up
from it ends, and it meets a type exactly if it is one of these. -/
def Entry.IsBelow (arena : Array Node) (e : Entry) (types : List String) : Prop :=
  ∃ node, arena[e.index]? = some node ∧ Chain arena node.parent types ∧
    e.depth = types.length + 1 ∧
    ∀ type, isExpandedAbove arena type node.parent = some (types.contains type)

theorem AwaitAll.exists_isBelow {arena : Array Node} (h : AwaitAll s config arena stack ps) :
    ∀ e ∈ stack, ∃ types, e.IsBelow arena types ∧ (config.maxDepth = none → s.Fresh types) := by
  induction h with
  | nil => exact nofun
  | @cons e p parent types stack ps first _ ih =>
    refine List.forall_mem_cons.mpr ⟨⟨types, ?_, first.fresh⟩, ih⟩
    exact ⟨_, first.found, first.chain, first.depth, first.chain.isExpandedAbove⟩

/-- Trees are at most one level deeper than the allowances of the fields that are visited. -/
theorem Traverses.depthAll_le (h : Traverses s config st ps st' ts) {k : Nat}
    (hk : ∀ p ∈ ps, p.allowance.size < k) : SelectionTree.depthAll ts ≤ k := by
  induction h generalizing k with
  | nil => exact Nat.zero_le k
  | @cons st stBelow st' p ps o ts us opens below behind ihBelow ihBehind =>
    rw [List.forall_mem_cons] at hk
    rw [SelectionTree.depthAll, Nat.max_le]
    refine ⟨?_, ihBehind hk.2⟩
    cases o with
    | leaf | truncated => exact Nat.one_le_of_lt hk.1
    | opens children rest =>
      obtain ⟨f, t, -, -, ho⟩ := Schema.openingOf_opens opens
      have hrest : rest.size < p.allowance.size := (Schema.opening_opens ho).2
      have hlt : rest.size < k - 1 := by omega
      have hbelow : ∀ q ∈ Pending.ofOpening (.opens children rest), q.allowance.size < k - 1 := by
        rw [Pending.ofOpening, List.forall_mem_map]
        exact fun _ _ => hlt
      have hdepth : SelectionTree.depthAll ts ≤ k - 1 := ihBelow hbelow
      have htree : ((st.visitOf config p (.opens children rest)).tree ts).depth =
          1 + SelectionTree.depthAll ts := rfl
      omega

end Synthesis

namespace Schema

variable {s : Schema}

/-- The query type is composite, so it is not among the types that may be expanded. -/
theorem size_allowance_lt {fields : List Field} (h : s.rootFields = .ok fields) :
    (s.allowance none).size < (s.types.filter NamedType.isComposite).length := by
  unfold rootFields at h
  split at h
  · next name description interfaces fields' hquery =>
    obtain ⟨query, hname, hfind⟩ := Option.bind_eq_some_iff.mp hquery
    have hmem := List.mem_of_find?_eq_some hfind
    have hlisted : query ∈ (s.types.filter NamedType.isComposite).map NamedType.name := by
      refine List.mem_map.mpr ⟨_, List.mem_filter.mpr ⟨hmem, rfl⟩, ?_⟩
      simpa using List.find?_some hfind
    rw [allowance, Allowance.size, ← List.length_map NamedType.name,
      List.length_filter_lt_length_iff_exists]
    exact ⟨query, hlisted, by simp [hname]⟩
  · contradiction

end Schema

namespace Synthesis

/-- Without a bound on the depth, the types that are expanded on the way to a place of traversed
trees are all different. -/
theorem Traverses.fresh {s : Schema} {config : Config} {st st' : State} {ps : List Pending}
    {ts : List SelectionTree} (h : Traverses s config st ps st' ts) {above : List Schema.Child}
    {depth : Nat} (habove : s.Fresh (above.filterMap Schema.Child.type?))
    (hps : ∀ p ∈ ps,
      p.allowance = s.allowanceAt none depth (above.filterMap Schema.Child.type?)) :
    ∀ place ∈ s.placesAmong above (ps.map Pending.child) ts, s.Fresh place.expandedTypes := by
  induction h generalizing above depth with
  | nil => exact List.forall_mem_nil _
  | @cons st stBelow st' p ps o ts us opens below behind ihBelow ihBehind =>
    rw [List.forall_mem_cons] at hps
    rw [placesAmong_tree above ps ts us opens, List.forall_mem_cons, List.forall_mem_append]
    cases o with
    | leaf | truncated =>
      rw [Pending.ofOpening, List.map_nil, Schema.placesAmong_nil]
      exact ⟨habove, List.forall_mem_nil _, ihBehind habove hps.2⟩
    | opens children rest =>
      obtain ⟨f, t, hchild, hreturn, ho⟩ := Schema.openingOf_opens opens
      rw [hps.1] at ho
      obtain ⟨hcut, hrest⟩ := Schema.rest_of_opens (Schema.find?_of_returnType hreturn) ho
      have hfresh := habove.cons hcut
      have hcons : (p.child :: above).filterMap Schema.Child.type? =
          f.type.innermost :: above.filterMap Schema.Child.type? := by
        rw [hchild]
        rfl
      -- The allowance below is again the one that belongs to the types expanded on the way.
      rw [← hcons] at hfresh hrest
      have hbelow : ∀ q ∈ Pending.ofOpening (.opens children rest), q.allowance =
          s.allowanceAt none (depth + 1) ((p.child :: above).filterMap Schema.Child.type?) := by
        rw [Pending.ofOpening, List.forall_mem_map]
        exact fun _ _ => hrest
      exact ⟨hfresh, ihBelow hfresh hbelow, ihBehind habove hps.2⟩

end Synthesis

namespace Schema

open Synthesis

variable {s : Schema} {config : Config} {name : String} {q : SynthesizedQuery}

theorem depth_le_of_synthesize (h : s.synthesize config name = .ok q) :
    q.root.depth ≤ (s.allowance config.maxDepth).size + 1 := by
  obtain ⟨fields, f, st, -, -, hst, -⟩ := traverses_of_synthesize h
  have hall : SelectionTree.depthAll [q.root] ≤ (s.allowance config.maxDepth).size + 1 :=
    hst.depthAll_le (List.forall_mem_singleton.mpr (Nat.lt_succ_self _))
  rw [SelectionTree.depthAll, Nat.max_le] at hall
  exact hall.1

/-- Without a bound on the depth, a tree has no more levels than there are composite types. -/
theorem depth_le_composites (h : s.synthesize config name = .ok q) (hnone : config.maxDepth = none) :
    q.root.depth ≤ (s.types.filter NamedType.isComposite).length := by
  obtain ⟨fields, f, st, hfields, -⟩ := traverses_of_synthesize h
  have hdepth : q.root.depth ≤ (s.allowance config.maxDepth).size + 1 := depth_le_of_synthesize h
  have hsize : (s.allowance none).size < (s.types.filter NamedType.isComposite).length :=
    size_allowance_lt hfields
  rw [hnone] at hdepth
  omega

/-- Without a bound on the depth, no type is expanded twice on the way to a field. -/
theorem fresh_of_synthesize (h : s.synthesize config name = .ok q)
    (hnone : config.maxDepth = none) :
    ∃ fields f, s.rootFields = .ok fields ∧ fields.find? (·.name == name) = some f ∧
      (s.places f q.root).map Place.head = q.root.heads ∧
      ∀ p ∈ s.places f q.root, s.Fresh p.expandedTypes := by
  obtain ⟨fields, f, st, hfields, hfind, hst, -⟩ := traverses_of_synthesize h
  have hstart : s.allowance config.maxDepth = s.allowanceAt none 1 [] := by
    rw [hnone, allowance_eq]
  refine ⟨fields, f, hfields, hfind, hst.heads_places, ?_⟩
  rw [places_eq]
  exact hst.fresh ⟨List.nodup_nil, nofun⟩ (List.forall_mem_singleton.mpr hstart)

/-- The loop of a synthesis ends, after no more turns than the allowance of the root field bounds.
At each point that it comes to, the way up from a node that waits ends, and it leads over the types
that are expanded above the node; without a bound on the depth these are all different. The tree
that the loop leaves is bounded: by the bound on the depth, or without one by the number of
composite types, since none of these is expanded twice on the way from the root. -/
theorem synthesize_bounded (s : Schema) (config : Config) (name : String) :
    (∀ f, (∃ hends r, loop s config (.start f) [⟨0, 1⟩] hends = some r) ∧
      ∀ taken w stack, Turns s config taken (.start f) [⟨0, 1⟩] w stack →
        taken.length ≤ visitsWithin s (s.allowance config.maxDepth) ∧
        ∀ e ∈ stack, ∃ types, e.IsBelow w.arena types ∧
          (config.maxDepth = none → s.Fresh types)) ∧
    ∀ q, s.synthesize config name = .ok q →
      (∀ n, config.maxDepth = some n → q.root.depth ≤ max n 1) ∧
      (config.maxDepth = none → q.root.depth ≤ (s.types.filter NamedType.isComposite).length ∧
        ∃ fields f, s.rootFields = .ok fields ∧ fields.find? (·.name == name) = some f ∧
          (s.places f q.root).map Place.head = q.root.heads ∧
          ∀ p ∈ s.places f q.root, s.Fresh p.expandedTypes) := by
  refine ⟨fun f => ⟨?_, fun taken w stack hturns => ?_⟩, fun q hq => ⟨?_, ?_⟩⟩
  · obtain ⟨r, hr, -⟩ := (Follows.start s config f).loop
    exact ⟨ends_start s config f, r, hr⟩
  · obtain ⟨st, ps, hfollows, hle⟩ := (Follows.start s config f).turns hturns
    refine ⟨?_, hfollows.awaits.exists_isBelow⟩
    simp only [bound] at hle
    omega
  · intro n hn
    have hdepth : q.root.depth ≤ (s.allowance config.maxDepth).size + 1 :=
      depth_le_of_synthesize hq
    rw [hn, allowance, Allowance.size] at hdepth
    omega
  · intro hnone
    exact ⟨depth_le_composites hq hnone, fresh_of_synthesize hq hnone⟩

/-- Two types refer to each other, and one refers back to the query type. -/
private def ringSchema : Schema where
  query := some "Query"
  types := [
    ⟨"Query", none, .object [] [⟨"a", "Query", .named "A" true, []⟩]⟩,
    ⟨"A", none, .object [] [⟨"b", "A", .named "B" true, []⟩]⟩,
    ⟨"B", none, .object [] [
      ⟨"a", "B", .named "A" true, []⟩,
      ⟨"query", "B", .named "Query" true, []⟩]⟩]

/-- After the turns for the fields `a` and `b`, those below `b` wait under two expanded types. -/
theorem synthesize_bounded_ring :
    ∃ (f : Field) (q r : SynthesizedQuery) (w : SchemaWalk) (stack : List Entry),
      Turns ringSchema .default [0, 1] (.start f) [⟨0, 1⟩] w stack ∧
      stack.map Entry.depth = [3, 3] ∧
      [0, 1].length ≤ visitsWithin ringSchema (ringSchema.allowance none) ∧
      (∀ e ∈ stack, ∃ types, e.IsBelow w.arena types ∧ ringSchema.Fresh types) ∧
      ringSchema.synthesize ⟨false, some 5, none, 2⟩ "a" = .ok q ∧ q.root.depth ≤ max 5 1 ∧
      ringSchema.synthesize .default "a" = .ok r ∧
      r.root.depth ≤ (ringSchema.types.filter NamedType.isComposite).length ∧
      ∀ p ∈ ringSchema.places f r.root, ringSchema.Fresh p.expandedTypes := by
  have hlevels : (ringSchema.synthesize ⟨false, some 5, none, 2⟩ "a").toOption.any
      (fun q => q.root.depth == 5) = true := by
    rw [synthesize_eq_byWalk]
    decide +kernel
  have htypes : (ringSchema.synthesize .default "a").toOption.any
      (fun r => r.root.depth == 3) = true := by
    rw [synthesize_eq_byWalk]
    decide +kernel
  obtain ⟨q, hq, -⟩ := exists_of_toOption_any hlevels
  obtain ⟨r, hr, -⟩ := exists_of_toOption_any htypes
  obtain ⟨hloop, hbounded⟩ := synthesize_bounded ringSchema .default "a"
  obtain ⟨hcomposites, fields, f, hfields, hfind, -, hfresh⟩ := (hbounded r hr).2 rfl
  obtain rfl := Except.ok.inj hfields
  obtain rfl := Option.some.inj hfind
  have hdepth : q.root.depth ≤ max 5 1 := ((synthesize_bounded ringSchema _ "a").2 q hq).1 5 rfl
  -- The first two turns, and where they lead.
  have ha : ringSchema.openingOf (.field ⟨"a", "Query", .named "A" true, []⟩)
      (ringSchema.allowance none) =
      .ok (.opens [.field ⟨"b", "A", .named "B" true, []⟩] (.types ["B"])) := by
    with_unfolding_all rfl
  have hb : ringSchema.openingOf (.field ⟨"b", "A", .named "B" true, []⟩) (.types ["B"]) =
      .ok (.opens [.field ⟨"a", "B", .named "A" true, []⟩,
        .field ⟨"query", "B", .named "Query" true, []⟩] (.types [])) := by
    with_unfolding_all rfl
  obtain ⟨above, types, -, hfirst, hnext⟩ := (Follows.start ringSchema .default
    ⟨"a", "Query", .named "A" true, []⟩).turn
  obtain ⟨below, types', -, hsecond, -⟩ := (hnext _ ha).turn
  have hfirst := hfirst.trans (congrArg (some <| Except.map _ ·) ha)
  have hsecond := hsecond.trans (congrArg (some <| Except.map _ ·) hb)
  have hturns : ∃ w, Turns ringSchema .default [0, 1] (.start ⟨"a", "Query", .named "A" true, []⟩)
      [⟨0, 1⟩] w [⟨2, 3⟩, ⟨3, 3⟩] := ⟨_, .next hfirst (.next hsecond .none)⟩
  obtain ⟨w, hturns⟩ := hturns
  obtain ⟨hcount, hbelow⟩ := (hloop _).2 _ w _ hturns
  have hfreshBelow : ∀ e ∈ ([⟨2, 3⟩, ⟨3, 3⟩] : List Entry),
      ∃ types, e.IsBelow w.arena types ∧ ringSchema.Fresh types := by
    intro e he
    obtain ⟨types, hbelow, hfreshTypes⟩ := hbelow e he
    exact ⟨types, hbelow, hfreshTypes rfl⟩
  exact ⟨_, q, r, w, _, hturns, rfl, hcount, hfreshBelow, hq, hdepth, hr, hcomposites, hfresh⟩

end Schema

end QueryCraft
