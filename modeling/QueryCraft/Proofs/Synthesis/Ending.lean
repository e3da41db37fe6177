import QueryCraft.Proofs.Synthesis.Turning

/-!
The loop over the arena follows the walk without it. Each entry of the stack stands for a field to
visit, in the same order. So the loop ends, and there is always a result.
-/

namespace QueryCraft

namespace Synthesis

variable {s : Schema} {config : Config} {w w' : SchemaWalk} {e : Entry} {stack : List Entry}
  {st : State} {p : Pending} {ps : List Pending} {i : Nat} {node : Node}

theorem pushReversed_eq (depth : Nat) (children : List Nat) (stack : List Entry) :
    pushReversed depth children stack = children.map (⟨·, depth⟩) ++ stack := by
  rw [pushReversed, List.foldl_reverse]
  induction children with
  | nil => rfl
  | cons index children ih => rw [List.foldr_cons, ih, List.map_cons, List.cons_append]

/-- Each entry of the stack stands for one of the fields to visit, in the same order. -/
inductive AwaitAll (s : Schema) (config : Config) (arena : Array Node) :
    List Entry → List Pending → Prop where
  | nil : AwaitAll s config arena [] []
  | cons {e : Entry} {p : Pending} {parent : Option Nat} {types : List String}
      {stack : List Entry} {ps : List Pending} (first : e.Awaits s config arena p parent types)
      (rest : AwaitAll s config arena stack ps) : AwaitAll s config arena (e :: stack) (p :: ps)

namespace AwaitAll

variable {arena' : Array Node} {stack' : List Entry} {ps' : List Pending}

theorem append (h : AwaitAll s config arena stack ps) (h' : AwaitAll s config arena stack' ps') :
    AwaitAll s config arena (stack ++ stack') (ps ++ ps') := by
  induction h with
  | nil => exact h'
  | cons first _ ih => exact .cons first ih

theorem imp (h : AwaitAll s config arena stack ps)
    (hkept : ∀ e ∈ stack, ∀ p parent types, e.Awaits s config arena p parent types →
      e.Awaits s config arena' p parent types) : AwaitAll s config arena' stack ps := by
  induction h with
  | nil => exact .nil
  | cons first _ ih =>
    rw [List.forall_mem_cons] at hkept
    exact .cons (hkept.1 _ _ _ first) (ih hkept.2)

/-- What is selected on a type waits in consecutive nodes. -/
theorem of_children {first depth : Nat} {cs : List Schema.Child} {rest : Allowance}
    {parent : Option Nat} {types : List String}
    (h : ∀ k c, cs[k]? = some c →
      Entry.Awaits s config arena ⟨first + k, depth⟩ ⟨c, rest, false⟩ parent types) :
    AwaitAll s config arena ((List.range' first cs.length).map (⟨·, depth⟩))
      (cs.map fun c => ⟨c, rest, false⟩) := by
  induction cs generalizing first with
  | nil => exact .nil
  | cons c cs ih =>
    rw [List.length_cons, List.range'_succ, List.map_cons, List.map_cons]
    refine .cons (h 0 c rfl) (ih fun k c hk => ?_)
    have hnext := h (k + 1) c hk
    rwa [show first + (k + 1) = first + 1 + k by omega] at hnext

end AwaitAll

/-- The loop and the walk are at the same point: they have given out the same variables, and each
entry of the stack stands for one of the fields to visit. -/
structure Follows (s : Schema) (config : Config) (w : SchemaWalk) (stack : List Entry) (st : State)
    (ps : List Pending) : Prop where
  nonempty : 0 < w.arena.size
  wellFormed : WellFormed w.arena
  sameVariables : w.SameVariables st
  nodup : (stack.map Entry.index).Nodup
  awaits : AwaitAll s config w.arena stack ps

theorem Follows.start (s : Schema) (config : Config) (f : Schema.Field) :
    Follows s config (.start f) [⟨0, 1⟩] .initial
      [⟨.field f, s.allowance config.maxDepth, true⟩] := by
  have hroot {i : Nat} {node : Node} (h : (SchemaWalk.start f).arena[i]? = some node) :
      node = .new (some f) none := by
    cases i with
    | zero => exact (Option.some.inj h).symm
    | succ i => contradiction
  constructor
  case nonempty => exact Nat.zero_lt_one
  case wellFormed =>
    intro i node h
    obtain rfl := hroot h
    exact .childless rfl fun _ => rfl
  case sameVariables => exact ⟨rfl, rfl⟩
  case nodup => simp
  case awaits =>
    have hfirst : Entry.Awaits s config (SchemaWalk.start f).arena ⟨0, 1⟩
        ⟨.field f, s.allowance config.maxDepth, true⟩ none [] :=
      ⟨rfl, rfl, .top, rfl, fun _ => ⟨List.nodup_nil, nofun⟩, s.allowance_eq _, rfl⟩
    exact .cons hfirst .nil

namespace Entry.Awaits

variable {parent : Option Nat} {types : List String} {o : Schema.Opening}

theorem parent_visited (h : e.Awaits s config w.arena p parent types) (hi : w.arena[i]? = some node)
    (o : Schema.Opening) :
    ∃ node', (w.visited config st p parent e.index o).arena[i]? = some node' ∧
      node'.parent = node.parent := by
  by_cases hself : i = e.index
  · subst hself
    obtain rfl := Option.some.inj (h.found.symm.trans hi)
    refine ⟨_, grow_self h.lt_size, ?_⟩
    cases o <;> rfl
  · exact ⟨node, SchemaWalk.visited_other hi hself o, rfl⟩

/-- A turn keeps the arena well formed. -/
theorem wellFormed (h : e.Awaits s config w.arena p parent types) (hwf : WellFormed w.arena)
    (ho : s.openingOf p.child p.allowance = .ok o) :
    WellFormed (w.visited config st p parent e.index o).arena := by
  have hlt : e.index < w.arena.size := h.lt_size
  intro i node hi
  by_cases hself : i = e.index
  · subst hself
    obtain rfl := Option.some.inj ((grow_self hlt).symm.trans hi)
    cases o with
    | leaf | truncated => exact .childless rfl fun _ => rfl
    | opens children rest =>
      obtain ⟨f, t, hf, -, -⟩ := Schema.openingOf_opens ho
      refine ⟨fun j hj => ?_, List.nodup_range', ?_, fun h => absurd h Bool.false_ne_true⟩
      · obtain ⟨hle, hj⟩ := List.mem_range'_1.mp hj
        refine ⟨by omega, ?_⟩
        have hk : j - w.arena.size < children.length := by omega
        refine ⟨.new children[j - w.arena.size].field? (some e.index), ?_, rfl⟩
        rw [SchemaWalk.visited, grow_below hle, Schema.Opening.children, List.getElem?_map,
          List.getElem?_eq_getElem hk, Option.map_some]
      · simp [Node.opened, hf, Schema.Child.type?]
  · by_cases hold : i < w.arena.size
    · rw [SchemaWalk.visited, grow_other hold hself] at hi
      exact (hwf i node hi).mono fun j child hj => h.parent_visited hj o
    · rw [SchemaWalk.visited, grow_below (Nat.not_lt.mp hold), List.getElem?_map,
        Option.map_eq_some_iff] at hi
      obtain ⟨c, -, rfl⟩ := hi
      exact .childless rfl fun _ => rfl

/-- The nodes that a turn adds wait with what is left to expand below the node. -/
theorem awaits_children (h : e.Awaits s config w.arena p parent types)
    (ho : s.openingOf p.child p.allowance = .ok o) :
    AwaitAll s config (w.visited config st p parent e.index o).arena
      ((List.range' w.arena.size o.children.length).map (⟨·, e.depth + 1⟩))
      (Pending.ofOpening o) := by
  cases o with
  | leaf | truncated => exact .nil
  | opens children rest =>
    obtain ⟨f, t, hf, hreturn, ht⟩ := Schema.openingOf_opens ho
    have hfind : s.find? f.type.innermost = some t := Schema.find?_of_returnType hreturn
    rw [h.allowance] at ht
    obtain ⟨hcut, hrest⟩ := Schema.rest_of_opens hfind ht
    have hchain : Chain (w.visited config st p parent e.index (.opens children rest)).arena
        (some e.index) (f.type.innermost :: types) := by
      refine .step (grow_self h.lt_size) ?_ ?_ h.before (h.chain_visited h.chain _)
      · rw [Node.opened, hf, Schema.Child.field?]
      · rw [Node.opened, hf, Schema.Child.type?]
    refine AwaitAll.of_children fun k c hk =>
      (?_ : Entry.Awaits s config _ _ _ (some e.index) (f.type.innermost :: types))
    have hlt : e.index < w.arena.size + k := Nat.lt_add_right k h.lt_size
    constructor
    case found =>
      have hk : children[k]? = some c := hk
      rw [SchemaWalk.visited, grow_below (Nat.le_add_right _ k), Nat.add_sub_cancel_left,
        Schema.Opening.children, List.getElem?_map, hk, Option.map_some]
    case before => exact decide_eq_true hlt
    case chain => exact hchain
    case depth => simp [h.depth]
    case fresh =>
      intro hnone
      rw [hnone] at hcut
      exact (h.fresh hnone).cons hcut
    case allowance => exact hrest
    case isRoot =>
      have hpos : 0 < w.arena.size + k := Nat.zero_lt_of_lt hlt
      exact (beq_false_of_ne (Nat.ne_of_gt hpos)).symm

end Entry.Awaits

namespace Follows

theorem lt_size (h : Follows s config w stack st ps) :
    ∀ i ∈ stack.map Entry.index, i < w.arena.size := by
  obtain ⟨-, -, -, -, hawaits⟩ := h
  induction hawaits with
  | nil => exact nofun
  | cons first _ ih => exact List.forall_mem_cons.mpr ⟨first.lt_size, ih⟩

/-- A turn of the loop does what a visit of the walk does, and leaves both at the same point again.
-/
theorem turn (h : Follows s config w (e :: stack) st (p :: ps)) :
    ∃ parent types, e.Awaits s config w.arena p parent types ∧
      Synthesis.turn s config w e = some ((s.openingOf p.child p.allowance).map fun o =>
        (List.range' w.arena.size o.children.length, w.visited config st p parent e.index o)) ∧
      ∀ o, s.openingOf p.child p.allowance = .ok o →
        Follows s config (w.visited config st p parent e.index o)
          ((List.range' w.arena.size o.children.length).map (⟨·, e.depth + 1⟩) ++ stack)
          (st.visited config p o) (Pending.ofOpening o ++ ps) := by
  have hlt := h.lt_size
  obtain ⟨hpos, hwf, hsame, hnodup, hawaits⟩ := h
  rw [List.map_cons, List.nodup_cons] at hnodup
  rw [List.map_cons, List.forall_mem_cons] at hlt
  cases hawaits with
  | @cons e p parent types stack ps first rest =>
    refine ⟨parent, types, first, first.turn_eq hsame, fun o ho => ?_⟩
    constructor
    case nonempty => exact Nat.lt_of_lt_of_le hpos (size_le_visited w config st _ parent _ o)
    case wellFormed => exact first.wellFormed hwf ho
    case sameVariables => exact ⟨rfl, rfl⟩
    case nodup =>
      rw [List.map_append, List.map_map, List.nodup_append]
      refine ⟨by simpa [Function.comp_def] using List.nodup_range', hnodup.2, ?_⟩
      intro i hi j hj
      have hle : w.arena.size ≤ i := by
        simp only [Function.comp_def, List.map_id'] at hi
        exact (List.mem_range'_1.mp hi).1
      have hj : j < w.arena.size := hlt.2 j hj
      omega
    case awaits =>
      refine (first.awaits_children ho).append (rest.imp fun e' he' p' parent' types' h' => ?_)
      have hne : e'.index ≠ e.index := fun heq => hnodup.1 (heq ▸ List.mem_map_of_mem he')
      exact ⟨SchemaWalk.visited_other h'.found hne o, h'.before, first.chain_visited h'.chain o,
        h'.depth, h'.fresh, h'.allowance, h'.isRoot⟩

end Follows

/-- A turn leads to a point that both are at again, where fewer visits are left. -/
theorem Follows.next {children : List Nat} (h : Follows s config w (e :: stack) st ps)
    (hturn : Synthesis.turn s config w e = some (.ok (children, w'))) :
    ∃ st' ps', Follows s config w' (pushReversed (e.depth + 1) children stack) st' ps' ∧
      bound s ps' < bound s ps := by
  cases ps with
  | nil => cases h.awaits
  | cons p ps =>
    obtain ⟨parent, types, -, heq, hnext⟩ := h.turn
    cases ho : s.openingOf p.child p.allowance with
    | error cause =>
      rw [heq, ho] at hturn
      cases hturn
    | ok o =>
      rw [heq, ho] at hturn
      obtain ⟨rfl, rfl⟩ := Prod.mk.inj (Except.ok.inj (Option.some.inj hturn))
      have hfollows := hnext o ho
      rw [← pushReversed_eq] at hfollows
      have hvisit : visit s config st p = .ok (st.visited config p o, Pending.ofOpening o) := by
        rw [visit_eq, ho]
        rfl
      have hlt : bound s (Pending.ofOpening o) < bound s [p] := bound_lt_of_visit hvisit
      have hsplit : bound s (p :: ps) = bound s [p] + bound s ps := bound_append s [p] ps
      refine ⟨_, _, hfollows, ?_⟩
      rw [bound_append]
      omega

theorem Follows.ends (h : Follows s config w stack st ps) : Ends s config w stack := by
  induction hn : bound s ps using Nat.strongRecOn generalizing w stack st ps with
  | _ n ih =>
    refine Acc.intro _ fun point hpoint => ?_
    cases hpoint with
    | turn hturn =>
      obtain ⟨st', ps', hnext, hlt⟩ := h.next hturn
      exact ih _ (hn ▸ hlt) hnext rfl

theorem loop_nil (w : SchemaWalk) (h : Ends s config w []) :
    loop s config w [] h = some (.ok w) := by
  rw [loop]

theorem loop_of_error {cause : Schema.LookupError} (hturn : turn s config w e = some (.error cause))
    (h : Ends s config w (e :: stack)) : loop s config w (e :: stack) h = some (.error cause) := by
  rw [loop]
  split
  · next hnone => cases hturn.symm.trans hnone
  · next herror =>
    cases hturn.symm.trans herror
    rfl
  · next hok => cases hturn.symm.trans hok

theorem loop_of_turn {children : List Nat} (hturn : turn s config w e = some (.ok (children, w')))
    (h : Ends s config w (e :: stack)) :
    loop s config w (e :: stack) h =
      loop s config w' (pushReversed (e.depth + 1) children stack) (h.inv (.turn hturn)) := by
  rw [loop]
  split
  · next hnone => cases hturn.symm.trans hnone
  · next herror => cases hturn.symm.trans herror
  · next hok =>
    cases hturn.symm.trans hok
    rfl

/-- What the loop and the walk end with: the same error, or a point that they both are at. -/
def EndsWith (s : Schema) (config : Config) :
    Except Schema.LookupError SchemaWalk → Except Schema.LookupError State → Prop
  | .error cause, .error cause' => cause = cause'
  | .ok w, .ok st => Follows s config w [] st []
  | _, _ => False

/-- From a point that they both are at, the loop ends as the walk does. -/
theorem Follows.loop (h : Follows s config w stack st ps) :
    ∃ r, Synthesis.loop s config w stack h.ends = some r ∧
      EndsWith s config r (walk s config st ps) := by
  induction st, ps using Synthesis.walk.induct s config generalizing w stack with
  | case1 st =>
    obtain ⟨⟩ := h.awaits
    rw [loop_nil, walk_nil]
    exact ⟨.ok w, rfl, h⟩
  | case2 st p ps cause hvisit =>
    cases stack with
    | nil => cases h.awaits
    | cons e stack =>
      obtain ⟨parent, types, -, hturn, -⟩ := h.turn
      have ho : s.openingOf p.child p.allowance = .error cause := openingOf_of_visit hvisit
      rw [ho] at hturn
      refine ⟨.error cause, loop_of_error hturn _, ?_⟩
      rw [walk_cons, hvisit]
      rfl
  | case3 st p ps st' below hvisit _ ih =>
    cases stack with
    | nil => cases h.awaits
    | cons e stack =>
      obtain ⟨parent, types, -, hturn, hnext⟩ := h.turn
      obtain ⟨o, ho, rfl, rfl⟩ := visit_ok hvisit
      rw [ho] at hturn
      have hfollows := hnext o ho
      rw [← pushReversed_eq] at hfollows
      obtain ⟨r, hr, hends⟩ := ih hfollows
      refine ⟨r, (loop_of_turn hturn _).trans hr, ?_⟩
      rw [walk_cons, hvisit]
      exact hends

/-- Turns from a root field do not lead on for ever. -/
theorem ends_start (s : Schema) (config : Config) (f : Schema.Field) :
    Ends s config (.start f) [⟨0, 1⟩] :=
  (Follows.start s config f).ends

/-- The arena that the loop of a synthesis leaves has a tree. -/
theorem isSome_run? (s : Schema) (config : Config) (f : Schema.Field) :
    (run? s config f (ends_start s config f)).isSome = true := by
  obtain ⟨r, hr, hends⟩ := (Follows.start s config f).loop
  rw [run?, hr]
  cases r with
  | error cause => rfl
  | ok w =>
    cases hwalk : walk s config .initial [⟨.field f, s.allowance config.maxDepth, true⟩] with
    | error cause =>
      rw [hwalk] at hends
      contradiction
    | ok st =>
      rw [hwalk] at hends
      have hfollows : Follows s config w [] st [] := hends
      obtain ⟨t, order, ht, -⟩ := hfollows.wellFormed.exists_assemble hfollows.nonempty
      simp only [ht, Option.map_some, Option.isSome_some]

end Synthesis

end QueryCraft
