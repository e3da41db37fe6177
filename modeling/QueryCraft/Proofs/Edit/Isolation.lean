import QueryCraft.Edit
import QueryCraft.Proofs.Edit.Binding

/-!
What the other operations of a document have to do with edits of its operation. They are carried
along unchanged. Only an edit that binds arguments to a variable looks into them: a definition that
becomes free stays where the text of another operation mentions a variable of that name.
-/

namespace QueryCraft

/-- Whether the node is an operation; its variables are its own. -/
def Verbatim.isOperation (node : Verbatim) : Bool :=
  match node.kind with
  | .mutation | .query | .subscription => true
  | .fragmentDefinition | .fragmentSpread | .inlineFragment => false

namespace VariableDefinition

variable {x : String} {isOrphan : String → Bool} {defined : Bool}
  {ds es : List VariableDefinition}

/-- Where there is an orphan, something is left to take over. -/
theorem exists_takeOver_of_orphan {d : VariableDefinition} (hd : d ∈ ds)
    (horphan : isOrphan d.name = true) : ∃ es, takeOver x isOrphan defined ds = some es := by
  have hdefined (cs : List VariableDefinition) : ∃ es, takeOver x isOrphan true cs = some es := by
    induction cs with
    | nil => exact ⟨[], rfl⟩
    | cons c cs ih =>
      obtain ⟨es, hes⟩ := ih
      unfold takeOver
      split
      · exact ⟨c :: es, by rw [hes]; rfl⟩
      · exact ⟨es, by rw [if_pos rfl, hes]⟩
  induction ds with
  | nil => contradiction
  | cons c cs ih =>
    unfold takeOver
    split
    · next hkept =>
      rcases List.mem_cons.mp hd with rfl | hd
      · simp [horphan] at hkept
      · obtain ⟨es, hes⟩ := ih hd
        exact ⟨c :: es, by rw [hes]; rfl⟩
    · obtain ⟨es, hes⟩ := hdefined cs
      split
      · exact ⟨es, hes⟩
      · exact ⟨_, by rw [hes]; rfl⟩

/-- No orphan is left. -/
theorem not_isOrphan_of_mem_takeOver (hx : isOrphan x = false)
    (h : takeOver x isOrphan defined ds = some es) {e : VariableDefinition} (he : e ∈ es) :
    isOrphan e.name = false := by
  induction ds generalizing defined es with
  | nil =>
    unfold takeOver at h
    split at h
    · obtain rfl := Option.some.inj h
      contradiction
    · contradiction
  | cons d ds ih =>
    unfold takeOver at h
    split at h
    · next hkept =>
      obtain ⟨rest, hrest, rfl⟩ := Option.map_eq_some_iff.mp h
      rcases List.mem_cons.mp he with rfl | he
      · simpa using hkept
      · exact ih hrest he
    · split at h
      · exact ih h he
      · obtain ⟨rest, hrest, rfl⟩ := Option.map_eq_some_iff.mp h
        rcases List.mem_cons.mp he with rfl | he
        · exact hx
        · exact ih hrest he

/-- What is taken over tells which definitions are orphans. -/
theorem takeOver_eq_iff {isFree : String → Bool} (hx : isOrphan x = false)
    (hx' : isFree x = false) :
    takeOver x isOrphan defined ds = takeOver x isFree defined ds ↔
      ∀ d ∈ ds, isOrphan d.name = isFree d.name := by
  constructor
  · intro h d hd
    -- Of an orphan, the one result has no definition, and the other keeps it if it is none there.
    have hsame {p q : String → Bool} (hq : q x = false)
        (h : takeOver x p defined ds = takeOver x q defined ds) (hp : p d.name = false) :
        q d.name = false := by
      cases horphan : q d.name with
      | false => rfl
      | true =>
        obtain ⟨es, hes⟩ : ∃ es, takeOver x q defined ds = some es :=
          exists_takeOver_of_orphan hd horphan
        have hmem : d ∈ es := mem_takeOver (h.trans hes) hd hp
        exact horphan.symm.trans (not_isOrphan_of_mem_takeOver hq hes hmem)
    cases horphan : isOrphan d.name with
    | false => exact (hsame hx' h horphan).symm
    | true =>
      cases hfree : isFree d.name with
      | true => rfl
      | false => exact horphan.symm.trans (hsame hx h.symm hfree)
  · intro h
    induction ds generalizing defined with
    | nil => rfl
    | cons d ds ih =>
      rw [List.forall_mem_cons] at h
      simp only [takeOver, h.1, ih h.2]

end VariableDefinition

namespace Document

variable {d e : Document} {name x : String} {v : Value} {nodes : List Verbatim}

/-- The document without its other operations. -/
def withoutOperations (d : Document) : Document :=
  { d with auxiliary := d.auxiliary.filter fun node => !node.isOperation }

/-- Whether the text of another operation mentions a variable `x`. -/
def operationsMention (x : String) (d : Document) : Bool :=
  (d.auxiliary.filter Verbatim.isOperation).any (Verbatim.mentions x)

def withAuxiliary (nodes : List Verbatim) (d : Document) : Document :=
  { d with auxiliary := nodes }

theorem mentions_eq (x : String) (d : Document) :
    d.mentions x = (d.withoutOperations.mentions x || d.operationsMention x) := by
  have hany : d.auxiliary.any (Verbatim.mentions x) =
      ((d.auxiliary.filter fun node => !node.isOperation).any (Verbatim.mentions x) ||
        (d.auxiliary.filter Verbatim.isOperation).any (Verbatim.mentions x)) := by
    induction d.auxiliary with
    | nil => rfl
    | cons node nodes ih =>
      cases hnode : node.isOperation <;> simp [hnode, ih, Bool.or_left_comm, Bool.or_assoc]
  simp only [mentions, withoutOperations, operationsMention, hany, Bool.or_assoc]

/-- A definition becomes free if it does without the other operations and these do not mention it. -/
theorem isFreed_eq (name x y : String) (d : Document) :
    d.isFreed name x y = (d.withoutOperations.isFreed name x y && !d.operationsMention y) := by
  simp only [isFreed, mentions_eq y (d.map _ _), Bool.not_or, Bool.and_assoc]
  rfl

theorem assign_withAuxiliary (name : String) (v : Value) (nodes : List Verbatim) (d : Document) :
    (d.withAuxiliary nodes).assign name v = (d.assign name v).map (withAuxiliary nodes) := by
  have hmap (failure : Option EditError) (f : Document) :
      (Folder.outcome failure f).map (withAuxiliary nodes) =
        Folder.outcome failure (f.withAuxiliary nodes) := by
    cases failure <;> rfl
  rw [assign, assign, hmap]
  rfl

theorem setArgumentText_withAuxiliary (name raw : String) (nodes : List Verbatim) (d : Document) :
    (d.withAuxiliary nodes).setArgumentText name raw =
      (d.setArgumentText name raw).map (withAuxiliary nodes) := by
  have hvalue (current : Value) :
      (d.withAuxiliary nodes).argumentValue raw current = d.argumentValue raw current := rfl
  have hcurrent : (d.withAuxiliary nodes).operation.argument? name = d.operation.argument? name :=
    rfl
  unfold setArgumentText
  rw [hcurrent]
  cases d.operation.argument? name with
  | none => rfl
  | some current =>
    simp only [hvalue]
    cases hv : d.argumentValue raw current with
    | error expected => rfl
    | ok v =>
      simp only [setArgument_eq_assign (kind_ne_var_of_argumentValue hv), assign_withAuxiliary]

end Document

/-- Whether the edit binds arguments to a variable. -/
def Edit.isRebinding : Edit → Bool
  | .argument _ (.var _) => true
  | _ => false

theorem Edit.apply_var {name x : String} (policy : EmptyPolicy) (d : Document) :
    (argument name (.var x)).apply policy d = d.rebind name x :=
  Document.setArgument_var

/-- Other edits make the same of an operation whatever stands beside it. -/
theorem Edit.apply_withAuxiliary {edit : Edit} (h : edit.isRebinding = false) (policy : EmptyPolicy)
    (nodes : List Verbatim) (d : Document) :
    edit.apply policy (d.withAuxiliary nodes) =
      (edit.apply policy d).map (Document.withAuxiliary nodes) := by
  cases edit with
  | select names => rfl
  | selectAt path names =>
    have hchildren : (d.withAuxiliary nodes).hasChildrenAt path = d.hasChildrenAt path := rfl
    simp only [apply, Document.selectAt, hchildren]
    split <;> rfl
  | argument name v =>
    have hv : v.kind ≠ .var := by
      intro hvar
      obtain ⟨x, rfl⟩ := Value.kind_eq_var_iff.mp hvar
      contradiction
    simp only [apply, Document.setArgument_eq_assign hv]
    exact d.assign_withAuxiliary name v nodes
  | argumentText name raw => exact d.setArgumentText_withAuxiliary name raw nodes
  | rename name =>
    cases name with
    | none => rfl
    | some name =>
      simp only [apply, Document.rename]
      split <;> rfl

/-- No edit touches what stands beside the operation. -/
theorem Edit.auxiliary_of_apply {edit : Edit} {policy : EmptyPolicy} {d e : Document}
    (h : edit.apply policy d = .ok e) : e.auxiliary = d.auxiliary := by
  cases hrebinding : edit.isRebinding with
  | false =>
    have hsame : edit.apply policy d =
        (edit.apply policy d).map (Document.withAuxiliary d.auxiliary) :=
      apply_withAuxiliary hrebinding policy d.auxiliary d
    rw [h] at hsame
    rw [Except.ok.inj hsame]
    rfl
  | true =>
    unfold isRebinding at hrebinding
    split at hrebinding
    · next name x =>
      have hrebind : d.rebind name x = .ok e := by rwa [apply_var] at h
      rcases Document.rebind_cases hrebind with ⟨-, rfl⟩ | ⟨-, -, -, -, hauxiliary⟩
      · rfl
      · exact hauxiliary
    · contradiction

/-- What an edit makes of the operation of a document, or why it fails. -/
def Edit.outcome (policy : EmptyPolicy) (edit : Edit) (d : Document) : Except EditError Operation :=
  (edit.apply policy d).map Document.operation

/-- What binding arguments to `x` makes of an operation, by what is left of its definitions. -/
def Operation.rebound (x : String) (op : Operation) :
    Option (List VariableDefinition) → Except EditError Operation
  | some definitions => .ok { op with definitions }
  | none => .error (.undefinedVariable x)

theorem Operation.rebound_eq_iff {x : String} {op : Operation}
    {left left' : Option (List VariableDefinition)} :
    op.rebound x left = op.rebound x left' ↔ left = left' := by
  cases left <;> cases left' <;> simp [rebound]

theorem Document.rebind_outcome {d : Document} {name x : String}
    (hany : ∃ a ∈ d.operation.allArguments, a.name = name) :
    (d.rebind name x).map operation =
      (d.operation.map (Argument.rebind name x) id).rebound x
        (VariableDefinition.takeOver x (d.isFreed name x) (d.operation.definition? x).isSome
          d.operation.definitions) := by
  rw [rebind_eq hany]
  cases VariableDefinition.takeOver x (d.isFreed name x) (d.operation.definition? x).isSome
    d.operation.definitions <;> rfl

theorem Document.isFreed_of_absent {d : Document} {name : String}
    (habsent : ∀ a ∈ d.operation.allArguments, a.name ≠ name) (x y : String) :
    d.isFreed name x y = false := by
  have hbound : y ∉ d.operation.boundVariables name := by
    intro hy
    obtain ⟨a, ha, hname, -⟩ := Operation.mem_boundVariables.mp hy
    exact habsent a ha hname
  simp [isFreed, hbound]

/-- Binding arguments to a variable has the same outcome exactly if the same definitions become
free. -/
theorem Document.rebind_outcome_eq_iff {d e : Document} {name x : String}
    (h : d.operation = e.operation) :
    (d.rebind name x).map operation = (e.rebind name x).map operation ↔
      ∀ w ∈ d.operation.definitions, d.isFreed name x w.name = e.isFreed name x w.name := by
  by_cases hany : ∃ a ∈ d.operation.allArguments, a.name = name
  · rw [rebind_outcome hany, rebind_outcome (h ▸ hany), ← h, Operation.rebound_eq_iff]
    exact VariableDefinition.takeOver_eq_iff (d.isFreed_self name x) (e.isFreed_self name x)
  · have habsent : ∀ a ∈ d.operation.allArguments, a.name ≠ name := by simpa using hany
    have habsent' : ∀ a ∈ e.operation.allArguments, a.name ≠ name := h ▸ habsent
    rw [rebind_of_absent habsent, rebind_of_absent habsent']
    simp [Except.map, h, isFreed_of_absent habsent, isFreed_of_absent habsent']

/-- Two documents that differ in their other operations only have the same outcome of an edit,
unless it binds arguments to a variable. Such an edit has the same outcome exactly if each definition
that nothing else refers to any more is mentioned by the other operations of both documents or of
neither. Every edit carries the other operations along. -/
theorem Edit.outcome_eq_iff {d e : Document} (h : d.withoutOperations = e.withoutOperations)
    (policy : EmptyPolicy) (edit : Edit) :
    (∀ f, edit.apply policy d = .ok f → f.auxiliary = d.auxiliary) ∧
    (edit.outcome policy d = edit.outcome policy e ↔
      ∀ name x, edit = .argument name (.var x) → ∀ w ∈ d.operation.definitions,
        d.withoutOperations.isFreed name x w.name = true →
          d.operationsMention w.name = e.operationsMention w.name) := by
  refine ⟨fun f => auxiliary_of_apply, ?_⟩
  have hoperation : d.withoutOperations.operation = e.withoutOperations.operation := by rw [h]
  cases hrebinding : edit.isRebinding with
  | false =>
    have hne : ∀ name x, edit ≠ .argument name (.var x) := by
      rintro name x rfl
      contradiction
    have hd : d = e.withAuxiliary d.auxiliary :=
      congrArg (fun operation => Document.mk operation d.auxiliary) hoperation
    have hsame : edit.outcome policy d = edit.outcome policy e := by
      rw [hd, outcome, apply_withAuxiliary hrebinding, outcome]
      cases edit.apply policy e <;> rfl
    simp [hsame, hne]
  | true =>
    unfold isRebinding at hrebinding
    split at hrebinding
    · next name x =>
      have hiff : outcome policy (.argument name (.var x)) d =
          outcome policy (.argument name (.var x)) e ↔
          ∀ w ∈ d.operation.definitions, d.isFreed name x w.name = e.isFreed name x w.name := by
        rw [outcome, outcome, apply_var, apply_var]
        exact Document.rebind_outcome_eq_iff hoperation
      rw [hiff]
      simp only [Document.isFreed_eq name x _ d, Document.isFreed_eq name x _ e, ← h]
      constructor
      · rintro hfreed name' x' hedit w hw hfree
        simp only [argument.injEq, Value.var.injEq] at hedit
        obtain ⟨rfl, rfl⟩ := hedit
        simpa [hfree] using hfreed w hw
      · intro hmention w hw
        cases hfree : d.withoutOperations.isFreed name x w.name with
        | false => rfl
        | true => rw [hmention name x rfl w hw hfree]
    · contradiction

private def userQuery (others : List Verbatim) : Document where
  operation :=
    { name := none
      definitions := [⟨"id", .named "ID" false, none⟩]
      directives := []
      selections := [.branch ⟨none, "user", [⟨"id", .var "id"⟩], []⟩ [.leaf ⟨none, "name", [], []⟩]] }
  auxiliary := others

private def listUsers : Verbatim :=
  ⟨.query, "query($first: Int) \x7b\n  users(first: $first)\n\x7d"⟩

private def dropUser : Verbatim :=
  ⟨.mutation, "mutation($id: ID!) \x7b\n  drop(id: $id)\n\x7d"⟩

theorem Edit.outcome_eq_iff_listUsers :
    (userQuery [listUsers]).withoutOperations = (userQuery []).withoutOperations ∧
    (∀ f, apply .cascade (.argument "id" (.var "key")) (userQuery [listUsers]) = .ok f →
      f.auxiliary = [listUsers]) ∧
    outcome .cascade (.argument "id" (.var "key")) (userQuery [listUsers]) =
      outcome .cascade (.argument "id" (.var "key")) (userQuery []) := by
  have halone : (userQuery [listUsers]).withoutOperations = (userQuery []).withoutOperations := rfl
  obtain ⟨hauxiliary, hiff⟩ := outcome_eq_iff halone .cascade (.argument "id" (.var "key"))
  refine ⟨halone, hauxiliary, hiff.mpr fun name x _ w hw _ => ?_⟩
  obtain rfl := List.mem_singleton.mp hw
  decide

/-- A mutation with a variable of the same name keeps the definition from being taken over, and the
edit fails. -/
theorem Edit.outcome_differs_dropUser :
    (userQuery [dropUser]).withoutOperations = (userQuery []).withoutOperations ∧
    outcome .cascade (.argument "id" (.var "key")) (userQuery [dropUser]) =
      .error (.undefinedVariable "key") ∧
    ∃ op, outcome .cascade (.argument "id" (.var "key")) (userQuery []) = .ok op :=
  ⟨rfl, by with_unfolding_all rfl, _, by with_unfolding_all rfl⟩

end QueryCraft
