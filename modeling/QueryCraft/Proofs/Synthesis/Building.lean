import QueryCraft.Proofs.Synthesis.Traversal
import QueryCraft.Synthesis

/-!
The tree that the loop over the arena builds. The turns taken for a node and for everything below it
come one after another, they change no other node of those that were there, and they leave the tree
that the walk leaves. So nodes are visited in the order of the document, and assembly puts the same
trees together as the visits of the walk describe.
-/

namespace QueryCraft

namespace Synthesis

variable {s : Schema} {config : Config} {w wNext w' : SchemaWalk}
  {stack stackNext stack' : List Entry} {taken others : List Nat} {st st' : State}
  {ps qs : List Pending} {ts : List SelectionTree}

/-- Turns of the loop lead from one walk and stack to others. They take the nodes at some indices
off the stack, in this order. -/
inductive Turns (s : Schema) (config : Config) :
    List Nat → SchemaWalk → List Entry → SchemaWalk → List Entry → Prop where
  | none {w : SchemaWalk} {stack : List Entry} : Turns s config [] w stack w stack
  | next {taken children : List Nat} {w wNext w' : SchemaWalk} {e : Entry}
      {stack stack' : List Entry} (turn : turn s config w e = some (.ok (children, wNext)))
      (turns : Turns s config taken wNext (pushReversed (e.depth + 1) children stack) w' stack') :
      Turns s config (e.index :: taken) w (e :: stack) w' stack'

theorem Turns.trans (h : Turns s config taken w stack wNext stackNext)
    (h' : Turns s config others wNext stackNext w' stack') :
    Turns s config (taken ++ others) w stack w' stack' := by
  induction h with
  | none => exact h'
  | next turn _ ih => exact .next turn (ih h')

/-- The loop goes on from where turns lead. -/
theorem Turns.loop_eq (h : Turns s config taken w stack w' stack') (hends : Ends s config w stack) :
    ∃ hends' : Ends s config w' stack',
      loop s config w stack hends = loop s config w' stack' hends' := by
  induction h with
  | none => exact ⟨hends, rfl⟩
  | next turn _ ih =>
    obtain ⟨hends', heq⟩ := ih (hends.inv (.turn turn))
    exact ⟨hends', (loop_of_turn turn hends).trans heq⟩

/-- What is left of a stack after turns that take some entries and all that is below them. -/
structure Built (s : Schema) (config : Config) (taken : List Nat) (w : SchemaWalk)
    (entries rest : List Entry) (w' : SchemaWalk) (ts : List SelectionTree) : Prop where
  turns : Turns s config taken w (entries ++ rest) w' rest
  shows : Shows w'.arena (entries.map Entry.index) ts taken
  /-- Besides the nodes of the entries, only new ones are taken. -/
  fresh : ∀ i ∈ taken, i ∈ entries.map Entry.index ∨ w.arena.size ≤ i
  unchanged : ∀ i < w.arena.size, i ∉ entries.map Entry.index → w'.arena[i]? = w.arena[i]?
  size : w.arena.size ≤ w'.arena.size

theorem children_opened (c : Schema.Child) (parent : Option Nat) (arguments : List Argument)
    (first : Nat) (o : Schema.Opening) :
    (Node.opened c parent arguments first o).children = List.range' first o.children.length := by
  cases o <;> rfl

/-- A node has the tree of the visit that the walk records. -/
theorem tree?_opened {p : Pending} {o : Schema.Opening}
    (h : s.openingOf p.child p.allowance = .ok o) (st : State) (parent : Option Nat) (first : Nat)
    (ts : List SelectionTree) :
    (Node.opened p.child parent (st.bindAll (p.parameters config)).1 first o).tree? ts =
      some ((st.visitOf config p o).tree ts) := by
  have hname : (p.child.field?.map Schema.Field.name).getD "__typename" = p.child.name := by
    cases p.child <;> rfl
  cases o with
  | leaf | truncated =>
    simp [Node.opened, Node.tree?, Node.head, hname, Visit.tree, State.visitOf, Extent.ofOpening]
  | opens children rest =>
    obtain ⟨f, t, hf, -, -⟩ := Schema.openingOf_opens h
    have htype : p.child.type? = some f.type.innermost := by rw [hf, Schema.Child.type?]
    simp [Node.opened, Node.tree?, Node.head, hname, Visit.tree, State.visitOf, Extent.ofOpening,
      htype]

/-- A turn for an entry, then all turns for what it adds, then those for the entries behind it. -/
theorem Built.cons {e : Entry} {es rest : List Entry} {n : Nat} {node : Node} {wBelow : SchemaWalk}
    {t : SelectionTree} {us : List SelectionTree}
    (hturn : turn s config w e = some (.ok (List.range' w.arena.size n, wNext)))
    (hnode : wNext.arena[e.index]? = some node)
    (hchildren : node.children = List.range' w.arena.size n) (htree : node.tree? ts = some t)
    (hothers : ∀ i < w.arena.size, i ≠ e.index → wNext.arena[i]? = w.arena[i]?)
    (hsize : w.arena.size ≤ wNext.arena.size)
    (hbelow : Built s config taken wNext
      ((List.range' w.arena.size n).map (Entry.mk · (e.depth + 1))) (es ++ rest) wBelow ts)
    (hbehind : Built s config others wBelow es rest w' us)
    (hlt : ∀ i ∈ (e :: es).map Entry.index, i < w.arena.size)
    (hnodup : ((e :: es).map Entry.index).Nodup) :
    Built s config (e.index :: (taken ++ others)) w (e :: es) rest w' (t :: us) := by
  rw [List.map_cons, List.forall_mem_cons] at hlt
  rw [List.map_cons, List.nodup_cons] at hnodup
  obtain ⟨hturns, hshows, hfresh, hunchanged, hsize'⟩ := hbelow
  obtain ⟨hturns', hshows', hfresh', hunchanged', hsize''⟩ := hbehind
  simp only [List.map_map, Function.comp_def, List.map_id'] at hshows hfresh hunchanged
  -- All that is below the entry is new, so none of the entries behind it are.
  have hnew : ∀ i ∈ taken, w.arena.size ≤ i := by
    intro i hi
    rcases hfresh i hi with hi | hi
    · exact (List.mem_range'_1.mp hi).1
    · omega
  have hold : ∀ i < w.arena.size, wBelow.arena[i]? = wNext.arena[i]? := by
    intro i hi
    refine hunchanged i (by omega) fun hmem => ?_
    have hle := (List.mem_range'_1.mp hmem).1
    omega
  constructor
  case turns =>
    refine .next hturn ?_
    rw [pushReversed_eq]
    exact hturns.trans hturns'
  case shows =>
    have hkept : Shows w'.arena node.children ts taken := by
      rw [hchildren]
      refine hshows.congr fun i hi => hunchanged' i (hshows.lt_size i hi) fun hmem => ?_
      have hle := hnew i hi
      have hlt := hlt.2 i hmem
      omega
    refine .cons ?_ hkept htree hshows'
    rw [hunchanged' e.index (by omega) hnodup.1, hold e.index hlt.1, hnode]
  case fresh =>
    rw [List.forall_mem_cons, List.forall_mem_append]
    refine ⟨.inl List.mem_cons_self, fun i hi => .inr (hnew i hi), fun i hi => ?_⟩
    rcases hfresh' i hi with hi | hi
    · exact .inl (List.mem_cons_of_mem _ hi)
    · exact .inr (by omega)
  case unchanged =>
    intro i hi hmem
    rw [List.map_cons, List.mem_cons, not_or] at hmem
    rw [hunchanged' i (by omega) hmem.2, hold i hi, hothers i hi hmem.1]
  case size => omega

/-- What is traversed is built. -/
theorem Traverses.built (h : Traverses s config st ps st' ts) {entries rest : List Entry}
    (hfollows : Follows s config w (entries ++ rest) st (ps ++ qs))
    (hlength : entries.length = ps.length) :
    ∃ taken w', Built s config taken w entries rest w' ts ∧ Follows s config w' rest st' qs := by
  induction h generalizing w entries rest qs with
  | nil =>
    obtain rfl := List.length_eq_zero_iff.mp hlength
    exact ⟨[], w, ⟨.none, .nil, nofun, fun _ _ _ => rfl, Nat.le_refl _⟩, hfollows⟩
  | @cons st stBelow st' p ps o ts us opens below behind ihBelow ihBehind =>
    obtain ⟨e, es, rfl⟩ := List.exists_cons_of_length_eq_add_one hlength
    have hlt : ∀ i ∈ (e :: es).map Entry.index, i < w.arena.size := fun i hi =>
      hfollows.lt_size i (by simp only [List.map_append, List.mem_append, hi, true_or])
    have hnodup : ((e :: es).map Entry.index).Nodup := by
      have hall := hfollows.nodup
      rw [List.map_append, List.nodup_append] at hall
      exact hall.1
    obtain ⟨parent, types, first, hturn, hnext⟩ := hfollows.turn
    rw [opens] at hturn
    have hcount : ((List.range' w.arena.size o.children.length).map
        (Entry.mk · (e.depth + 1))).length = (Pending.ofOpening o).length := by
      cases o <;> simp [Schema.Opening.children, Pending.ofOpening]
    obtain ⟨taken, wBelow, hbelow, hfollows⟩ := ihBelow (hnext o opens) hcount
    obtain ⟨others, w', hbehind, hfollows'⟩ := ihBehind hfollows (Nat.succ.inj hlength)
    refine ⟨_, w', .cons hturn (grow_self first.lt_size) (children_opened _ _ _ _ o)
      (tree?_opened opens st parent _ ts) ?_ (size_le_visited ..) hbelow hbehind hlt hnodup,
      hfollows'⟩
    exact fun i hi hne => grow_other hi hne

/-- The turns for a root field, whose tree they build. -/
theorem Traverses.built_root {f : Schema.Field} {root : SelectionTree}
    (h : Traverses s config .initial [⟨.field f, s.allowance config.maxDepth, true⟩] st [root]) :
    ∃ taken w', Built s config taken (.start f) [⟨0, 1⟩] [] w' [root] ∧
      Follows s config w' [] st [] := by
  have hstart : Follows s config (.start f) ([⟨0, 1⟩] ++ []) .initial
      ([⟨.field f, s.allowance config.maxDepth, true⟩] ++ []) := Follows.start s config f
  exact h.built hstart rfl

/-- The tree of the first node is that of the traversed root field. -/
theorem Built.assemble_eq {f : Schema.Field} {root : SelectionTree}
    (h : Built s config taken (.start f) [⟨0, 1⟩] [] w' [root])
    (hfollows : Follows s config w' [] st []) : assemble w'.arena = some root := by
  obtain ⟨t, order, ht, hshows⟩ := hfollows.wellFormed.exists_assemble hfollows.nonempty
  obtain ⟨htrees, -⟩ := hshows.unique h.shows
  obtain ⟨rfl, -⟩ := List.cons.inj htrees
  exact ht

/-- The query that the end of a walk describes. -/
def Config.query (config : Config) (field : Schema.Field) (st : State) : SynthesizedQuery where
  indent := config.indent
  operationName := config.operationName
  root := (assembleVisits st.visits).headD (.leaf ⟨field.name, []⟩)
  definitions := st.definitions

theorem Traverses.query_eq {f : Schema.Field} {root : SelectionTree}
    (h : Traverses s config .initial [⟨.field f, s.allowance config.maxDepth, true⟩] st [root]) :
    config.query f st = ⟨config.indent, config.operationName, root, st.definitions⟩ := by
  rw [Config.query, h.assemble_visits]
  rfl

/-- The loop over the arena and its assembly come to what the walk and its visits describe. -/
theorem run?_eq (s : Schema) (config : Config) (f : Schema.Field) :
    run? s config f (ends_start s config f) =
      some ((walk s config .initial [⟨.field f, s.allowance config.maxDepth, true⟩]).map fun st =>
        ((config.query f st).root, st.definitions)) := by
  cases hwalk : walk s config .initial [⟨.field f, s.allowance config.maxDepth, true⟩] with
  | error cause =>
    obtain ⟨r, hr, hends⟩ := (Follows.start s config f).loop
    rw [hwalk] at hends
    cases r with
    | ok w => contradiction
    | error cause' =>
      obtain rfl : cause' = cause := hends
      rw [run?, hr]
      rfl
  | ok st =>
    obtain ⟨ts, hts⟩ := Traverses.of_walk hwalk
    obtain ⟨root, rfl⟩ := List.length_eq_one_iff.mp hts.length_eq
    obtain ⟨taken, w', hbuilt, hfollows⟩ := hts.built_root
    have hturns : Turns s config taken (.start f) [⟨0, 1⟩] w' [] := hbuilt.turns
    obtain ⟨hends, hloop⟩ := hturns.loop_eq (ends_start s config f)
    rw [loop_nil] at hloop
    rw [run?, hloop]
    simp only [hbuilt.assemble_eq hfollows, Option.map_some, Except.map, hts.query_eq,
      hfollows.sameVariables.2]

theorem ofField_eq (s : Schema) (config : Config) (f : Schema.Field) :
    ofField s config f =
      (walk s config .initial [⟨.field f, s.allowance config.maxDepth, true⟩]).map
        (config.query f) := by
  unfold ofField
  simp only [run?_eq, Option.get_some]
  cases walk s config .initial [⟨.field f, s.allowance config.maxDepth, true⟩] <;> rfl

end Synthesis

/-- The query for the field of the query type with the given name, by the walk. -/
def Schema.synthesizeByWalk (s : Schema) (config : Synthesis.Config) (name : String) :
    Except SynthesisError SynthesizedQuery :=
  match s.rootFields with
  | .error e => .error (.schema e)
  | .ok fields =>
    match fields.find? (·.name == name) with
    | none => .error (.unknownRootField name (fields.map Field.name))
    | some f =>
      ((Synthesis.walk s config .initial [⟨.field f, s.allowance config.maxDepth, true⟩]).map
        (config.query f)).mapError .schema

theorem Schema.synthesize_eq_byWalk (s : Schema) (config : Synthesis.Config) (name : String) :
    s.synthesize config name = s.synthesizeByWalk config name := by
  unfold synthesize synthesizeByWalk
  cases s.rootFields with
  | error e => rfl
  | ok fields =>
    dsimp only
    cases fields.find? (·.name == name) with
    | none => rfl
    | some f =>
      exact congrArg (Except.mapError SynthesisError.schema) (Synthesis.ofField_eq s config f)

/-- A successful synthesis is a walk from the root field with the name. -/
theorem Schema.synthesize_ok {s : Schema} {config : Synthesis.Config} {name : String}
    {q : SynthesizedQuery} (h : s.synthesize config name = .ok q) :
    ∃ fields f st, s.rootFields = .ok fields ∧ fields.find? (·.name == name) = some f ∧
      Synthesis.walk s config .initial [⟨.field f, s.allowance config.maxDepth, true⟩] = .ok st ∧
      q = config.query f st := by
  unfold Schema.synthesize at h
  split at h
  · contradiction
  · next fields hfields =>
    split at h
    · contradiction
    · next f hfind =>
      cases hwalk : Synthesis.walk s config .initial
          [⟨.field f, s.allowance config.maxDepth, true⟩] with
      | error e =>
        rw [Synthesis.ofField_eq, hwalk] at h
        contradiction
      | ok st =>
        rw [Synthesis.ofField_eq, hwalk] at h
        exact ⟨fields, f, st, hfields, hfind, hwalk, (Except.ok.inj h).symm⟩

/-- Synthesis succeeds exactly if the root field with the name is traversed. It gives the tree of
the field with the definitions that the traversal leaves. -/
theorem Schema.synthesize_eq_ok_iff {s : Schema} {config : Synthesis.Config} {name : String}
    {q : SynthesizedQuery} :
    s.synthesize config name = .ok q ↔
      ∃ fields f st, s.rootFields = .ok fields ∧ fields.find? (·.name == name) = some f ∧
        Synthesis.Traverses s config .initial [⟨.field f, s.allowance config.maxDepth, true⟩] st
          [q.root] ∧
        q = ⟨config.indent, config.operationName, q.root, st.definitions⟩ := by
  constructor
  · intro h
    obtain ⟨fields, f, st, hfields, hfind, hwalk, rfl⟩ := synthesize_ok h
    obtain ⟨ts, hts⟩ := Synthesis.Traverses.of_walk hwalk
    obtain ⟨root, rfl⟩ := List.length_eq_one_iff.mp hts.length_eq
    rw [hts.query_eq]
    exact ⟨fields, f, st, hfields, hfind, hts, rfl⟩
  · rintro ⟨fields, f, st, hfields, hfind, hst, hq⟩
    have hwalk : Synthesis.walk s config .initial
        [⟨.field f, s.allowance config.maxDepth, true⟩] = .ok st :=
      (hst.walk_append []).trans (Synthesis.walk_nil st)
    have hquery : config.query f st = q := hst.query_eq.trans hq.symm
    rw [synthesize, hfields]
    simp only [hfind, Synthesis.ofField_eq, hwalk]
    exact congrArg Except.ok hquery

/-- A successful synthesis traverses the root field with the name, whose tree it gives. -/
theorem Schema.traverses_of_synthesize {s : Schema} {config : Synthesis.Config} {name : String}
    {q : SynthesizedQuery} (h : s.synthesize config name = .ok q) :
    ∃ fields f st, s.rootFields = .ok fields ∧ fields.find? (·.name == name) = some f ∧
      Synthesis.Traverses s config .initial [⟨.field f, s.allowance config.maxDepth, true⟩] st
        [q.root] ∧
      q.definitions = st.definitions := by
  obtain ⟨fields, f, st, hfields, hfind, hst, hq⟩ := synthesize_eq_ok_iff.mp h
  exact ⟨fields, f, st, hfields, hfind, hst, congrArg SynthesizedQuery.definitions hq⟩

/-- The loop of a successful synthesis takes the nodes off its stack in the order of the document,
and the arena that it leaves shows the tree. -/
theorem Schema.turns_of_synthesize {s : Schema} {config : Synthesis.Config} {name : String}
    {q : SynthesizedQuery} (h : s.synthesize config name = .ok q) :
    ∃ fields f taken w, s.rootFields = .ok fields ∧ fields.find? (·.name == name) = some f ∧
      Synthesis.Turns s config taken (.start f) [⟨0, 1⟩] w [] ∧
      Synthesis.Shows w.arena [0] [q.root] taken ∧ w.definitions = q.definitions := by
  obtain ⟨fields, f, st, hfields, hfind, hst, hdefinitions⟩ := traverses_of_synthesize h
  obtain ⟨taken, w, hbuilt, hfollows⟩ := hst.built_root
  exact ⟨fields, f, taken, w, hfields, hfind, hbuilt.turns, hbuilt.shows,
    hfollows.sameVariables.2.trans hdefinitions.symm⟩

end QueryCraft
