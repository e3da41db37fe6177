import QueryCraft.Proofs.Document.Taking

/-!
What the parsers of fields, selections, operations and definitions take from the front of the
tokens, and what they make of it.
-/

namespace QueryCraft

structure Field.Formed (f : Field) : Prop where
  aliasName : f.aliasName.all Text.isName = true
  name : Text.isName f.name = true
  arguments : ∀ a ∈ f.arguments, a.Formed false
  directives : ∀ d ∈ f.directives, d.Formed false

namespace Executable

/-- The arguments and directives behind the name of a field. -/
theorem takes_field (steps : Nat) (first : String) :
    Takes false 0 (fun f => Text.isName first = true → f.Formed)
      (fun steps => parseField steps first) steps := by
  intro ts f rest h
  simp only [parseField.eq_def] at h
  split at h
  · next name ts =>
    split at h
    · contradiction
    · next arguments behind hparse =>
      split at h
      · contradiction
      · next directives behind' hparse' =>
        obtain ⟨rfl, rfl⟩ := Prod.mk.inj (Option.some.inj h)
        have harguments := Argument.takes_group false steps _ _ _ hparse
        have hdirectives := Directive.takes_list false steps _ _ _ hparse'
        refine (((harguments.andThen hdirectives).token (.name name)).token .colon).imp ?_ ?_
        · rintro ⟨-, hname, hformed, hformed'⟩ hfirst
          exact ⟨hfirst, hname, hformed, hformed'⟩
        · rintro more others ⟨-, hagain, hagain'⟩
          simp only [List.cons_append, parseField, hagain, hagain']
  · contradiction
  · next hcolon =>
    split at h
    · contradiction
    · next arguments behind hparse =>
      split at h
      · contradiction
      · next directives behind' hparse' =>
        obtain ⟨rfl, rfl⟩ := Prod.mk.inj (Option.some.inj h)
        have harguments := Argument.takes_group false steps _ _ _ hparse
        have hdirectives := Directive.takes_list false steps _ _ _ hparse'
        -- Without a colon the first name is that of the field, also when more tokens follow.
        refine (harguments.andThen hdirectives).nonempty.imp ?_ ?_
        · rintro ⟨hformed, hformed'⟩ hfirst
          exact ⟨rfl, hfirst, hformed, hformed'⟩
        · rintro more others ⟨hne, -, hagain, hagain'⟩
          have hnone := append_ne_cons hne (fun ts heq => hcolon _ heq) others
          show parseField more first (ts ++ others) = _
          rw [parseField]
          · simp only [hagain, hagain']
          · exact fun _ _ => hnone _
          · exact fun _ => hnone _

end Executable

/-- A directive that is made of names can be printed. -/
theorem Directive.Formed.isPrintable {d : Directive} (h : d.Formed false) :
    d.isPrintable = true := by
  simp only [Directive.isPrintable, Bool.and_eq_true, List.all_eq_true, Argument.isPrintable]
  exact ⟨h.name, fun a ha => ⟨(h.arguments a ha).name, (h.arguments a ha).value.printable⟩⟩

theorem Directive.keyed_of_formed {ds : List Directive} (h : ∀ d ∈ ds, d.Formed false) :
    ∀ a ∈ allArguments ds, a.value.everywhere Value.isKeyed = true := by
  intro a ha
  obtain ⟨d, hd, ha⟩ := List.mem_flatMap.mp ha
  exact ((h d hd).arguments a ha).value.keyed

theorem Field.Formed.isPrintable {f : Field} (h : f.Formed) : f.isPrintable = true := by
  simp only [Field.isPrintable, Bool.and_eq_true, List.all_eq_true, Argument.isPrintable]
  refine ⟨⟨⟨h.aliasName, h.name⟩, fun a ha => ?_⟩, fun d hd => (h.directives d hd).isPrintable⟩
  exact ⟨(h.arguments a ha).name, (h.arguments a ha).value.printable⟩

theorem Field.Formed.keyed {f : Field} (h : f.Formed) :
    ∀ a ∈ f.allArguments, a.value.everywhere Value.isKeyed = true := by
  rw [forall_allArguments]
  exact ⟨fun a ha => (h.arguments a ha).value.keyed, Directive.keyed_of_formed h.directives⟩

/-- A printable selection whose objects are maps. -/
structure Selection.Formed (s : Selection) : Prop where
  printable : s.everywhere isPrintable = true
  keyed : ∀ a ∈ s.allArguments, a.value.everywhere Value.isKeyed = true

namespace Selection

theorem ofExecutables_eq_map (es : List Executable.Selection) :
    ofExecutables es = es.map ofExecutable := by
  induction es with
  | nil => rfl
  | cons e es ih => simp [ofExecutables, ih]

theorem mem_allArguments_ofExecutable {f : Field} {es : List Executable.Selection} {a : Argument}
    (h : a ∈ f.allArguments) : a ∈ (ofExecutable (.field f es)).allArguments := by
  cases es with
  | nil => exact h
  | cons e es => exact List.mem_append_left _ h

theorem Formed.leaf {f : Field} (h : f.Formed) : (Selection.leaf f).Formed :=
  ⟨h.isPrintable, h.keyed⟩

theorem Formed.branch {f : Field} {children : List Selection} (h : f.Formed) (hne : children ≠ [])
    (hchildren : ∀ s ∈ children, s.Formed) : (Selection.branch f children).Formed := by
  constructor
  · refine everywhere_branch.mpr ⟨?_, fun s hs => (hchildren s hs).printable⟩
    simp [isPrintable, h.isPrintable, hne]
  · rw [forall_allArguments_branch]
    exact ⟨h.keyed, fun s hs => (hchildren s hs).keyed⟩

theorem Formed.verbatim (node : Verbatim) : (Selection.verbatim node).Formed :=
  ⟨rfl, nofun⟩

end Selection

namespace Executable

/-- One or more selections that stand for printable ones. -/
def Selection.AllFormed (es : List Executable.Selection) : Prop :=
  es ≠ [] ∧ ∀ e ∈ es, (Selection.ofExecutable e).Formed

theorem Selection.AllFormed.field {f : Field} {es : List Executable.Selection} (hf : f.Formed)
    (h : AllFormed es) : (Selection.ofExecutable (.field f es)).Formed := by
  obtain ⟨hne, hes⟩ := h
  cases es with
  | nil => contradiction
  | cons e es =>
    rw [Selection.ofExecutable, Selection.ofExecutables_eq_map]
    exact .branch hf (by simp) (List.forall_mem_map.mpr hes)

theorem takes_selection {steps : Nat}
    (hinline : ∀ n < steps, ∀ condition,
      Takes true 0 (fun e => (Selection.ofExecutable e).Formed) (Selection.parseInline condition) n)
    (hlist : ∀ n < steps, Takes true 1 Selection.AllFormed Selection.parseList n) :
    Takes false 0 (fun e => (Selection.ofExecutable e).Formed) Selection.parse steps := by
  intro ts e rest h
  unfold Selection.parse at h
  split at h
  · next n first ts =>
    split at h
    · contradiction
    · next f behind hparse =>
      split at h
      · contradiction
      · next es behind' hparses =>
        obtain ⟨rfl, rfl⟩ := Prod.mk.inj (Option.some.inj h)
        have hfield := takes_field n first _ _ _ hparse
        have hes := hlist n (by omega) _ _ _ hparses
        have htook := hfield.andThen (hes.token .braceL)
        refine (htook.token (.name first)).later.bound.imp ?_ ?_
        · rintro ⟨hfirst, hformed, -, hformeds⟩
          exact hformeds.field (hformed hfirst)
        · rintro _ others ⟨more, rfl, -, hagain, hagains⟩
          simp only [List.cons_append] at hagain
          simp only [List.cons_append, Selection.parse, hagain, hagains]
    · next f behind hbrace hparse =>
      obtain ⟨rfl, rfl⟩ := Prod.mk.inj (Option.some.inj h)
      have hfield := takes_field n first _ _ _ hparse
      -- That the field has no selections is known from the token behind it.
      refine (hfield.followed.token (.name first)).later.imp ?_ ?_
      · rintro ⟨hfirst, hformed⟩
        exact .leaf (hformed hfirst)
      · rintro _ others ⟨more, rfl, hne, hagain⟩
        have hopen := append_ne_cons hne hbrace others
        rw [List.cons_append, Selection.parse]
        simp only [hagain]
  · next n name ts =>
    split at h
    · next hon =>
      split at h
      · next condition ts =>
        have hs := hinline n (by omega) (some condition) _ _ _ h
        have htook := (hs.token (.name condition)).token (.name name)
        refine (htook.token .spread).later.bound.imp (fun hgood => hgood.2.2.2) ?_
        rintro _ others ⟨more, rfl, hagain⟩
        rw [List.cons_append, List.cons_append, List.cons_append, Selection.parse, if_pos hon]
        exact hagain
      · contradiction
    · next hon =>
      split at h
      · contradiction
      · next directives behind hparse =>
        obtain ⟨rfl, rfl⟩ := Prod.mk.inj (Option.some.inj h)
        have hdirectives := Directive.takes_list false n _ _ _ hparse
        have htook := (hdirectives.token (.name name)).token .spread
        refine htook.later.imp (fun _ => .verbatim _) ?_
        rintro _ others ⟨more, rfl, hagain⟩
        unfold Selection.parse
        simp only [List.cons_append, hon, if_false, hagain]
  · next n ts hname =>
    have hs := hinline n (by omega) none _ _ _ h
    refine (hs.token .spread).later.bound.imp And.right ?_
    rintro _ others ⟨more, rfl, hagain⟩
    rw [List.cons_append, Selection.parse]
    · exact hagain
    · intro name more heq
      exact append_ne_cons (hs.ne_nil (.inl rfl)) (fun ts heq => hname name ts heq) others more heq
  · contradiction

theorem takes_inline {steps : Nat}
    (hlist : ∀ n < steps, Takes true 1 Selection.AllFormed Selection.parseList n)
    (condition : Option String) :
    Takes true 0 (fun e => (Selection.ofExecutable e).Formed) (Selection.parseInline condition)
      steps := by
  intro ts e rest h
  unfold Selection.parseInline at h
  split at h
  · next _ n =>
    split at h
    · next directives behind hparse =>
      split at h
      · contradiction
      · next es behind' hparses =>
        obtain ⟨rfl, rfl⟩ := Prod.mk.inj (Option.some.inj h)
        have hdirectives := Directive.takes_list false n _ _ _ hparse
        have hes := hlist n (by omega) _ _ _ hparses
        refine (hdirectives.andThen (hes.token .braceL)).later.imp (fun _ => .verbatim _) ?_
        rintro _ others ⟨more, rfl, -, hagain, hagains⟩
        simp only [List.cons_append] at hagain
        simp only [Selection.parseInline, hagain, hagains]
    · contradiction
  · contradiction

theorem takes_selections {steps : Nat}
    (hselection : ∀ n < steps,
      Takes false 0 (fun e => (Selection.ofExecutable e).Formed) Selection.parse n)
    (hlist : ∀ n < steps, Takes true 1 Selection.AllFormed Selection.parseList n) :
    Takes true 1 Selection.AllFormed Selection.parseList steps := by
  intro ts es rest h
  unfold Selection.parseList at h
  split at h
  · next _ n =>
    split at h
    · contradiction
    · next e behind hparse =>
      obtain ⟨rfl, rfl⟩ := Prod.mk.inj (Option.some.inj h)
      have he := hselection n (by omega) _ _ _ hparse
      refine (he.andThen (.single .braceR)).later.imp ?_ ?_
      · rintro ⟨hformed, -⟩
        exact ⟨List.cons_ne_nil _ _, List.forall_mem_singleton.mpr hformed⟩
      · rintro _ others ⟨more, rfl, -, hagain, -⟩
        simp only [List.cons_append] at hagain
        simp only [Selection.parseList, hagain]
    · next e behind hclose hparse =>
      split at h
      · contradiction
      · next es behind' hparses =>
        obtain ⟨rfl, rfl⟩ := Prod.mk.inj (Option.some.inj h)
        have he := hselection n (by omega) _ _ _ hparse
        have hes := hlist n (by omega) _ _ _ hparses
        refine (he.andThen hes).later.imp ?_ ?_
        · rintro ⟨hformed, -, hformeds⟩
          exact ⟨List.cons_ne_nil _ _, List.forall_mem_cons.mpr ⟨hformed, hformeds⟩⟩
        · rintro _ others ⟨more, rfl, hne, hagain, hagains⟩
          have hopen := append_ne_cons hne hclose others
          rw [Selection.parseList]
          simp only [hagain, hagains]
  · contradiction

theorem takes_selectionSet (steps : Nat) :
    Takes true 1 Selection.AllFormed Selection.parseList steps := by
  have h : Takes false 0 (fun e => (Selection.ofExecutable e).Formed) Selection.parse steps ∧
      (∀ condition, Takes true 0 (fun e => (Selection.ofExecutable e).Formed)
        (Selection.parseInline condition) steps) ∧
      Takes true 1 Selection.AllFormed Selection.parseList steps := by
    induction steps using Nat.strongRecOn with
    | ind steps ih =>
      refine ⟨takes_selection ?_ ?_, takes_inline ?_, takes_selections ?_ ?_⟩
      · exact fun n hn => (ih n hn).2.1
      · exact fun n hn => (ih n hn).2.2
      · exact fun n hn => (ih n hn).2.2
      · exact fun n hn => (ih n hn).1
      · exact fun n hn => (ih n hn).2.2
  exact h.2.2

theorem takes_set (steps : Nat) : Takes true 0 Selection.AllFormed Selection.parseSet steps := by
  intro ts es rest h
  unfold Selection.parseSet at h
  split at h
  · have hes := takes_selectionSet steps _ _ _ h
    exact (hes.token .braceL).imp And.right fun _ _ hagain => hagain
  · contradiction

end Executable

/-- A printable operation whose objects are maps. -/
structure Operation.Formed (op : Operation) : Prop where
  printable : op.isPrintable = true
  keyed : ∀ v ∈ op.values, v.everywhere Value.isKeyed = true

theorem VariableDefinition.Formed.isPrintable {d : VariableDefinition} (h : d.Formed) :
    d.isPrintable = true := by
  simp only [VariableDefinition.isPrintable, Bool.and_eq_true]
  refine ⟨⟨h.name, h.type⟩, ?_⟩
  cases hd : d.default with
  | none => rfl
  | some v =>
    have hv := h.default v hd
    simpa using ⟨hv.printable, hv.isConstant rfl⟩

theorem Operation.formed {op : Operation} (hname : op.name.all Text.isName = true)
    (hdefinitions : ∀ d ∈ op.definitions, d.Formed)
    (hdirectives : ∀ d ∈ op.directives, d.Formed false) (hne : op.selections ≠ [])
    (hselections : ∀ s ∈ op.selections, s.Formed) : op.Formed := by
  constructor
  · simp only [isPrintable, Bool.and_eq_true, List.all_eq_true, Selection.allEverywhere_iff]
    refine ⟨⟨⟨⟨hname, fun d hd => ?_⟩, fun d hd => ?_⟩, by simpa using hne⟩, fun s hs => ?_⟩
    · exact (hdefinitions d hd).isPrintable
    · exact (hdirectives d hd).isPrintable
    · exact (hselections s hs).printable
  · simp only [values, List.forall_mem_append, List.forall_mem_map, List.mem_filterMap,
      forall_exists_index, and_imp, forall_allArguments]
    refine ⟨⟨Directive.keyed_of_formed hdirectives, fun s hs => (hselections s hs).keyed⟩, ?_⟩
    exact fun v d hd hv => ((hdefinitions d hd).default v hv).keyed

namespace Executable

/-- A definition that is printable if it is a query. -/
def Definition.Formed (d : Definition) : Prop :=
  ∀ op, Operation.ofDefinition? d = some op → op.Formed

theorem Definition.formed_of_operation (kind : OperationKind) {name : Option String}
    {definitions : List VariableDefinition} {directives : List Directive}
    {es : List Executable.Selection} (hname : name.all Text.isName = true)
    (hdefinitions : ∀ d ∈ definitions, d.Formed) (hdirectives : ∀ d ∈ directives, d.Formed false)
    (hes : Selection.AllFormed es) :
    (Definition.operation kind name definitions directives es).Formed := by
  intro op hop
  cases kind with
  | query =>
    obtain rfl := Option.some.inj hop
    refine Operation.formed hname hdefinitions hdirectives ?_ ?_
    · simpa [Selection.ofExecutables_eq_map] using hes.1
    · rw [Selection.ofExecutables_eq_map]
      exact List.forall_mem_map.mpr hes.2
  | _ => contradiction

theorem takes_operation (kind : OperationKind) (name : Option String) (steps : Nat) :
    Takes true 0 (fun d => name.all Text.isName = true → d.Formed)
      (fun steps => Definition.parseOperation steps kind name) steps := by
  intro ts d rest h
  simp only [Definition.parseOperation.eq_def] at h
  split at h
  · contradiction
  · next definitions behind hparse =>
    split at h
    · contradiction
    · next directives behind' hparse' =>
      split at h
      · contradiction
      · next es behind'' hparses =>
        obtain ⟨rfl, rfl⟩ := Prod.mk.inj (Option.some.inj h)
        have hdefinitions := VariableDefinition.takes_group steps _ _ _ hparse
        have hdirectives := Directive.takes_list false steps _ _ _ hparse'
        have hes := takes_set steps _ _ _ hparses
        refine (hdefinitions.andThen (hdirectives.andThen hes)).imp ?_ ?_
        · rintro ⟨hformed, hformed', hformeds⟩ hname
          exact Definition.formed_of_operation kind hname hformed hformed' hformeds
        · rintro more others ⟨-, hagain, -, hagain', hagains⟩
          simp only [Definition.parseOperation, hagain, hagain', hagains]

theorem takes_definition (steps : Nat) :
    Takes true 0 Definition.Formed Definition.parse steps := by
  intro ts d rest h
  unfold Definition.parse at h
  split at h
  · split at h
    · contradiction
    · next es behind hparse =>
      obtain ⟨rfl, rfl⟩ := Prod.mk.inj (Option.some.inj h)
      have hes := takes_selectionSet steps _ _ _ hparse
      refine (hes.token .braceL).imp ?_ fun more others hagain => ?_
      · rintro ⟨-, hformeds⟩
        exact Definition.formed_of_operation .query rfl nofun nofun hformeds
      · simp only [List.cons_append, Definition.parse, hagain]
  · next word ts =>
    split at h
    · next kind hkind =>
      split at h
      · next name ts =>
        have hd := takes_operation kind (some name) steps _ _ _ h
        refine ((hd.token (.name name)).token (.name word)).imp ?_ fun more others hagain => ?_
        · rintro ⟨-, hname, hformed⟩
          exact hformed hname
        · simp only [List.cons_append, Definition.parse, hkind]
          exact hagain
      · next hname =>
        have hd := takes_operation kind none steps _ _ _ h
        refine (hd.token (.name word)).imp (fun hgood => hgood.2 rfl) fun more others hagain => ?_
        have hnone (name : String) : ∀ more, ts ++ others ≠ .name name :: more :=
          append_ne_cons (hd.ne_nil (.inl rfl)) (fun more heq => hname name more heq) others
        simp only [List.cons_append, Definition.parse, hkind]
        exact hagain
    · next hkind =>
      split at h
      · next name on condition ts =>
        split at h
        · next hword =>
          obtain ⟨rfl, rfl⟩ := hword
          split at h
          · contradiction
          · next directives behind hparse =>
            split at h
            · contradiction
            · next es behind' hparses =>
              obtain ⟨rfl, rfl⟩ := Prod.mk.inj (Option.some.inj h)
              have hdirectives := Directive.takes_list false steps _ _ _ hparse
              have hes := takes_set steps _ _ _ hparses
              have htook := (hdirectives.andThen hes).token (.name condition)
              refine (((htook.token (.name "on")).token (.name name)).token
                (.name "fragment")).imp (fun _ => nofun) ?_
              rintro more others ⟨-, hagain, hagains⟩
              simp only [List.cons_append, Definition.parse, hkind, and_self, if_true, hagain,
                hagains]
        · contradiction
      · contradiction
  · contradiction

end Executable

end QueryCraft
