import QueryCraft.Document.Reading
import QueryCraft.Proofs.Document.Mapping
import QueryCraft.Proofs.Document.Spelling
import QueryCraft.Proofs.Value.Sorting

/-!
The parsers read back the tokens of a document. Each one takes exactly the tokens of its construct,
in front of tokens that cannot belong to it, and needs no more steps than there are tokens.
-/

namespace QueryCraft

/-- A value takes at least one token, and none that closes a list. -/
theorem Value.tokens_cons (v : Value) : ∃ t ts, v.tokens = t :: ts ∧ t ≠ .bracketR := by
  cases v with
  | boolean b => cases b <;> exact ⟨_, _, rfl, nofun⟩
  | _ => exact ⟨_, _, rfl, nofun⟩

theorem Value.ofName_enum {name : String} (h : Text.isEnumName name = true) :
    ofName name = .enum name := by
  simp only [Text.isEnumName, Bool.and_eq_true, bne_iff_ne] at h
  obtain ⟨⟨⟨-, htrue⟩, hfalse⟩, hnull⟩ := h
  simp [ofName, htrue, hfalse, hnull]

namespace Value

variable {constant : Bool}

/-- What parsing a value has to do: take its tokens and give back the sorted value. -/
def ReadBy (constant : Bool) (v : Value) : Prop :=
  ∀ steps ts, v.tokens.length ≤ steps →
    Value.parse constant steps (v.tokens ++ ts) = some (v.sorted, ts)

theorem parseItems_tokens {items : List Value} (h : ∀ v ∈ items, v.ReadBy constant) :
    ∀ steps ts, (items.flatMap tokens).length < steps →
      parseItems constant steps (items.flatMap tokens ++ .bracketR :: ts) =
        some (items.map sorted, ts) := by
  induction items with
  | nil =>
    intro steps ts _
    simp [parseItems]
  | cons v vs ih =>
    intro steps ts hsteps
    have hv : v.ReadBy constant := h v (by simp)
    have hvs := ih fun w hw => h w (by simp [hw])
    obtain ⟨t, ts', htokens, hne⟩ := v.tokens_cons
    cases steps with
    | zero => omega
    | succ steps =>
      simp only [List.flatMap_cons, List.length_append] at hsteps
      have hpos : 0 < v.tokens.length := by simp [htokens]
      have hparse : Value.parse constant steps
          (v.tokens ++ (vs.flatMap tokens ++ .bracketR :: ts)) =
          some (v.sorted, vs.flatMap tokens ++ .bracketR :: ts) := hv _ _ (by omega)
      rw [List.flatMap_cons, List.append_assoc, parseItems, hparse]
      · simp only [hvs steps ts (by omega), List.map_cons]
      · intro ts'' heq
        rw [htokens, List.cons_append] at heq
        exact hne (List.cons.inj heq).1

theorem parseEntries_tokens {entries : List (String × Value)}
    (h : ∀ e ∈ entries, e.2.ReadBy constant) :
    ∀ steps ts, (entries.flatMap pairTokens).length < steps →
      parseEntries constant steps (entries.flatMap pairTokens ++ .braceR :: ts) =
        some (entries.map fun e => (e.1, sorted e.2), ts) := by
  induction entries with
  | nil =>
    intro steps ts _
    simp [parseEntries]
  | cons e es ih =>
    intro steps ts hsteps
    have he : e.2.ReadBy constant := h e (by simp)
    have hes := ih fun f hf => h f (by simp [hf])
    cases steps with
    | zero => omega
    | succ steps =>
      simp only [List.flatMap_cons, pairTokens, List.length_append, List.length_cons] at hsteps
      have hparse : Value.parse constant steps
          (e.2.tokens ++ (es.flatMap pairTokens ++ .braceR :: ts)) =
          some (e.2.sorted, es.flatMap pairTokens ++ .braceR :: ts) := he _ _ (by omega)
      simp only [List.flatMap_cons, pairTokens, List.cons_append, List.append_assoc]
      rw [parseEntries, hparse]
      simp only [hes steps ts (by omega), List.map_cons]

/-- The tokens of a printable value are parsed to its sorted form. -/
theorem readBy {v : Value} (hp : v.isPrintable = true)
    (hc : constant = true → v.isConstant = true) : v.ReadBy constant := by
  induction v using Value.inductOn with
  | null | int n | float x | string text =>
    intro steps ts _
    simp [tokens, Value.parse, sorted, ofName]
  | boolean b =>
    intro steps ts _
    cases b <;> simp [tokens, Value.parse, sorted, ofName]
  | enum name =>
    intro steps ts _
    simp [tokens, Value.parse, sorted, ofName_enum hp]
  | var name =>
    intro steps ts hsteps
    have hconstant : constant = false := by
      cases constant with
      | false => rfl
      | true => simp [isConstant] at hc
    simp [tokens, Value.parse, sorted, hconstant]
  | list items ih =>
    intro steps ts hsteps
    have hps := (everywhere_list.mp hp).2
    have hitems : ∀ v ∈ items, v.ReadBy constant :=
      fun v hv => ih v hv (hps v hv) fun h => isConstant_list.mp (hc h) v hv
    simp only [tokens, itemTokens_eq_flatMap, List.length_cons, List.length_append,
      List.length_nil] at hsteps
    cases steps with
    | zero => omega
    | succ steps =>
      simp only [tokens, itemTokens_eq_flatMap, List.cons_append, List.append_assoc,
        List.nil_append, sorted, sortedItems_eq_map]
      rw [Value.parse, parseItems_tokens hitems steps ts (by omega)]
  | object entries ih =>
    intro steps ts hsteps
    have hps := (everywhere_object.mp hp).2
    have hentries : ∀ e ∈ entries, e.2.ReadBy constant :=
      fun e he => ih e he (hps e he) fun h => isConstant_object.mp (hc h) e he
    simp only [tokens, entryTokens_eq_flatMap, List.length_cons, List.length_append,
      List.length_nil] at hsteps
    cases steps with
    | zero => omega
    | succ steps =>
      simp only [tokens, entryTokens_eq_flatMap, List.cons_append, List.append_assoc,
        List.nil_append, sorted, sortedEntries_eq_map]
      rw [Value.parse, parseEntries_tokens hentries steps ts (by omega)]

end Value

def Argument.sorted (a : Argument) : Argument :=
  { a with value := a.value.sorted }

def VariableDefinition.sorted (d : VariableDefinition) : VariableDefinition :=
  { d with default := d.default.map Value.sorted }

/-- The document with the entries of all objects sorted by key. -/
def Document.sorted (d : Document) : Document :=
  d.map Argument.sorted VariableDefinition.sorted

/-- Holds of the tokens that neither are arguments nor go on with directives. -/
def Token.endsDirectives : List Token → Bool
  | .parenL :: _ | .atSign :: _ => false
  | _ => true

theorem Argument.parseList_tokens {constant : Bool} {a : Argument} {as : List Argument}
    (h : ∀ b ∈ a :: as, b.value.ReadBy constant) :
    ∀ steps ts, ((a :: as).flatMap tokens).length ≤ steps →
      parseList constant steps ((a :: as).flatMap tokens ++ .parenR :: ts) =
        some ((a :: as).map sorted, ts) := by
  induction as generalizing a with
  | nil =>
    intro steps ts hsteps
    have ha : a.value.ReadBy constant := h a (by simp)
    simp only [List.flatMap_cons, List.flatMap_nil, List.append_nil, tokens, List.length_cons,
      List.cons_append] at hsteps ⊢
    cases steps with
    | zero => omega
    | succ steps =>
      rw [parseList, ha steps _ (by omega)]
      rfl
  | cons b bs ih =>
    intro steps ts hsteps
    have ha : a.value.ReadBy constant := h a (by simp)
    have hbs := ih (a := b) fun c hc => h c (by simp [List.mem_cons.mp hc])
    rw [List.flatMap_cons, List.append_assoc]
    rw [List.flatMap_cons, List.length_append] at hsteps
    simp only [tokens, List.length_cons, List.cons_append] at hsteps ⊢
    cases steps with
    | zero => omega
    | succ steps =>
      have hmore := hbs steps ts (by omega)
      rw [parseList, ha steps _ (by omega)]
      simp only [List.flatMap_cons, tokens, List.cons_append] at hmore ⊢
      rw [hmore]
      rfl

theorem Argument.parseGroup_tokens {constant : Bool} {as : List Argument} {ts : List Token}
    (steps : Nat) (h : ∀ a ∈ as, a.value.ReadBy constant)
    (hsteps : (groupTokens as).length ≤ steps) (hts : ∀ more, ts ≠ .parenL :: more) :
    parseGroup constant steps (groupTokens as ++ ts) = some (as.map sorted, ts) := by
  cases as with
  | nil => rw [groupTokens, List.nil_append, parseGroup]; rfl; exact hts
  | cons a as =>
    simp only [groupTokens, List.length_cons, List.length_append, List.length_nil] at hsteps
    simp only [groupTokens, List.cons_append, List.append_assoc, List.nil_append, parseGroup]
    exact parseList_tokens h steps ts (by omega)

/-- Directives, in front of tokens that are no arguments, are none either. -/
theorem Directive.tokens_ne_parenL (ds : List Directive) {ts : List Token}
    (hts : Token.endsDirectives ts = true) (more : List Token) :
    ds.flatMap tokens ++ ts ≠ .parenL :: more := by
  intro heq
  cases ds with
  | nil =>
    rw [List.flatMap_nil, List.nil_append] at heq
    rw [heq] at hts
    contradiction
  | cons d ds => simp [tokens] at heq

theorem Directive.parseList_tokens {ds : List Directive}
    (h : ∀ a ∈ allArguments ds, a.value.ReadBy false) {ts : List Token}
    (hts : Token.endsDirectives ts = true) :
    ∀ steps, (ds.flatMap tokens).length ≤ steps →
      parseList false steps (ds.flatMap tokens ++ ts) =
        some (ds.map (map Argument.sorted), ts) := by
  induction ds with
  | nil =>
    intro steps _
    unfold parseList
    split <;> simp_all [Token.endsDirectives]
  | cons d ds ih =>
    intro steps hsteps
    rw [forall_allArguments_cons] at h
    have hds := ih h.2
    simp only [List.flatMap_cons, tokens, List.length_append, List.length_cons] at hsteps
    cases steps with
    | zero => omega
    | succ steps =>
      simp only [List.flatMap_cons, tokens, List.cons_append, List.append_assoc]
      rw [parseList, Argument.parseGroup_tokens steps h.1 (by omega) (tokens_ne_parenL ds hts)]
      simp only [hds steps (by omega), List.map_cons, map]

/-- Holds of the tokens that cannot belong to a field without a selection set. -/
def Token.endsField : List Token → Bool
  | .parenL :: _ | .atSign :: _ | .colon :: _ => false
  | _ => true

theorem Token.endsDirectives_of_endsField {ts : List Token} (h : endsField ts = true) :
    endsDirectives ts = true := by
  unfold endsField at h
  unfold endsDirectives
  split <;> simp_all

/-- What stands behind the name of a field does not make the name an alias. -/
theorem Field.behind_ne_colon (as : List Argument) (ds : List Directive) {ts : List Token}
    (hts : Token.endsField ts = true) (more : List Token) :
    Argument.groupTokens as ++ (ds.flatMap Directive.tokens ++ ts) ≠ .colon :: more := by
  intro heq
  cases as with
  | cons a as => simp [Argument.groupTokens] at heq
  | nil =>
    cases ds with
    | cons d ds => simp [Argument.groupTokens, Directive.tokens] at heq
    | nil =>
      rw [Argument.groupTokens, List.flatMap_nil, List.nil_append, List.nil_append] at heq
      rw [heq] at hts
      contradiction

namespace Executable

/-- A field is read from behind its first name. -/
theorem parseField_tokens {f : Field} (h : ∀ a ∈ f.allArguments, a.value.ReadBy false)
    (steps : Nat) {ts : List Token} (hts : Token.endsField ts = true)
    (hsteps : f.tokens.length ≤ steps + 1) :
    ∃ first rest, f.tokens ++ ts = .name first :: rest ∧
      parseField steps first rest = some (f.map Argument.sorted, ts) := by
  rw [Field.forall_allArguments] at h
  have hends := Token.endsDirectives_of_endsField hts
  simp only [Field.tokens, List.length_append, List.length_cons] at hsteps
  have hgroup := Argument.parseGroup_tokens steps h.1 (by omega)
    (Directive.tokens_ne_parenL f.directives hends)
  have hlist := Directive.parseList_tokens h.2 hends steps (by omega)
  generalize hbehind : Argument.groupTokens f.arguments ++
    (f.directives.flatMap Directive.tokens ++ ts) = behind at hgroup
  cases halias : f.aliasName with
  | some a =>
    refine ⟨a, .colon :: .name f.name :: behind, ?_, ?_⟩
    · simp [Field.tokens, Field.aliasTokens, halias, ← hbehind]
    · simp only [parseField, hgroup, hlist, Field.map, halias]
  | none =>
    refine ⟨f.name, behind, ?_, ?_⟩
    · simp [Field.tokens, Field.aliasTokens, halias, ← hbehind]
    · have hcolon := Field.behind_ne_colon f.arguments f.directives hts
      rw [hbehind] at hcolon
      rw [parseField]
      · simp only [hgroup, hlist, Field.map, halias]
      · exact fun _ _ => hcolon _
      · exact fun _ => hcolon _

end Executable

theorem TypeRef.parseBang_tokens {type : Bool → TypeRef} (nullable : Bool) {ts : List Token}
    (hts : ∀ more, ts ≠ .bang :: more) :
    parseBang type (bangTokens nullable ++ ts) = some (type nullable, ts) := by
  cases nullable with
  | false => rfl
  | true =>
    rw [bangTokens, if_pos rfl, List.nil_append, parseBang]
    exact hts

theorem TypeRef.parse_tokens (t : TypeRef) :
    ∀ steps ts, t.tokens.length ≤ steps → (∀ more, ts ≠ .bang :: more) →
      TypeRef.parse steps (t.tokens ++ ts) = some (t, ts) := by
  induction t with
  | named name nullable =>
    intro steps ts _ hts
    simp only [tokens, List.cons_append, TypeRef.parse]
    exact parseBang_tokens nullable hts
  | list inner nullable ih =>
    intro steps ts hsteps hts
    simp only [tokens, List.length_cons, List.length_append] at hsteps
    cases steps with
    | zero => omega
    | succ steps =>
      have hinner := ih steps (.bracketR :: (bangTokens nullable ++ ts)) (by omega) nofun
      simp only [tokens, List.cons_append, List.append_assoc, TypeRef.parse, hinner]
      exact parseBang_tokens nullable hts

/-- A default is read in front of tokens that do not start one. -/
theorem VariableDefinition.parseDefault_tokens {d : VariableDefinition} {steps : Nat}
    {ts : List Token} (h : ∀ v ∈ d.default, v.ReadBy true)
    (hsteps : d.defaultTokens.length ≤ steps) (hts : ∀ more, ts ≠ .equals :: more) :
    Value.parseDefault steps (d.defaultTokens ++ ts) = some (d.default.map Value.sorted, ts) := by
  unfold defaultTokens at hsteps ⊢
  cases hd : d.default with
  | none =>
    rw [List.nil_append, Value.parseDefault]
    · rfl
    · exact hts
  | some v =>
    rw [hd] at hsteps
    simp only [List.length_cons] at hsteps
    rw [List.cons_append, Value.parseDefault, h v hd steps ts (by omega)]
    rfl

/-- One definition is read up to the next one or the end of the group. -/
theorem VariableDefinition.parse_tokens {d : VariableDefinition} (steps : Nat) (ts : List Token)
    (h : ∀ v ∈ d.default, v.ReadBy true) (hsteps : d.tokens.length ≤ steps + 1)
    (hbang : ∀ more, ts ≠ .bang :: more) (hequals : ∀ more, ts ≠ .equals :: more) :
    TypeRef.parse steps (d.type.tokens ++ (d.defaultTokens ++ ts)) =
        some (d.type, d.defaultTokens ++ ts) ∧
      Value.parseDefault steps (d.defaultTokens ++ ts) = some (d.default.map Value.sorted, ts) := by
  simp only [tokens, List.length_cons, List.length_append] at hsteps
  refine ⟨TypeRef.parse_tokens d.type _ _ (by omega) ?_, parseDefault_tokens h (by omega) hequals⟩
  intro more heq
  unfold defaultTokens at heq
  split at heq
  · exact hbang more heq
  · simp at heq

theorem VariableDefinition.parseList_tokens {d : VariableDefinition} {ds : List VariableDefinition}
    (h : ∀ e ∈ d :: ds, ∀ v ∈ e.default, v.ReadBy true) :
    ∀ steps ts, ((d :: ds).flatMap tokens).length ≤ steps →
      parseList steps ((d :: ds).flatMap tokens ++ .parenR :: ts) =
        some ((d :: ds).map sorted, ts) := by
  induction ds generalizing d with
  | nil =>
    intro steps ts hsteps
    simp only [List.flatMap_cons, List.flatMap_nil, List.append_nil] at hsteps ⊢
    cases steps with
    | zero => simp [tokens] at hsteps
    | succ steps =>
      obtain ⟨htype, hdefault⟩ := parse_tokens steps (.parenR :: ts) (h d (by simp)) hsteps nofun
        nofun
      simp only [tokens, List.cons_append, List.append_assoc]
      rw [parseList, htype]
      simp only [hdefault, List.map_cons, List.map_nil, sorted]
  | cons e es ih =>
    intro steps ts hsteps
    have hes := ih (d := e) fun f hf => h f (by simp [List.mem_cons.mp hf])
    rw [List.flatMap_cons, List.append_assoc]
    rw [List.flatMap_cons, List.length_append] at hsteps
    cases steps with
    | zero => simp [tokens] at hsteps
    | succ steps =>
      have hpos : 0 < d.tokens.length := by simp [tokens]
      have hmore := hes steps ts (by omega)
      obtain ⟨htype, hdefault⟩ := parse_tokens steps ((e :: es).flatMap tokens ++ .parenR :: ts)
        (h d (by simp)) (by omega) (by simp [tokens]) (by simp [tokens])
      rw [tokens, List.cons_append, List.cons_append, List.cons_append, List.append_assoc,
        parseList, htype]
      simp only [hdefault]
      simp only [List.flatMap_cons, tokens, List.cons_append] at hmore ⊢
      rw [hmore]
      rfl

theorem VariableDefinition.parseGroup_tokens {ds : List VariableDefinition} {ts : List Token}
    (steps : Nat) (h : ∀ d ∈ ds, ∀ v ∈ d.default, v.ReadBy true)
    (hsteps : (groupTokens ds).length ≤ steps) (hts : ∀ more, ts ≠ .parenL :: more) :
    parseGroup steps (groupTokens ds ++ ts) = some (ds.map sorted, ts) := by
  cases ds with
  | nil =>
    rw [groupTokens, List.nil_append, parseGroup]
    · rfl
    · exact hts
  | cons d ds =>
    simp only [groupTokens, List.length_cons, List.length_append, List.length_nil] at hsteps
    simp only [groupTokens, List.cons_append, List.append_assoc, List.nil_append, parseGroup]
    exact parseList_tokens h steps ts (by omega)

/-- What parsing a selection has to do: take its tokens and give back an executable selection that
stands for the sorted one. -/
def Selection.ReadBy (s : Selection) : Prop :=
  ∀ steps ts, s.tokens.length ≤ steps → Token.endsField ts = true → (∀ more, ts ≠ .braceL :: more) →
    ∃ e, Executable.Selection.parse steps (s.tokens ++ ts) = some (e, ts) ∧
      Selection.ofExecutable e = s.map Argument.sorted

/-- The tokens of a selection start with a name. -/
theorem Selection.tokens_cons {s : Selection} (h : s.isField = true) :
    ∃ name ts, s.tokens = .name name :: ts := by
  have hfield (f : Field) : ∃ name ts, f.tokens = .name name :: ts := by
    unfold Field.tokens Field.aliasTokens
    split <;> exact ⟨_, _, rfl⟩
  cases s with
  | verbatim node => simp [isField] at h
  | leaf f => exact hfield f
  | branch f children =>
    obtain ⟨name, ts, hname⟩ := hfield f
    cases children with
    | nil => exact ⟨name, ts, hname⟩
    | cons s ss =>
      refine ⟨name, ts ++ .braceL :: (listTokens (s :: ss) ++ [.braceR]), ?_⟩
      simp [tokens, hname]

theorem Selection.parseList_tokens {s : Selection} {ss : List Selection}
    (h : ∀ t ∈ s :: ss, t.ReadBy) (hf : ∀ t ∈ s :: ss, t.isField = true) :
    ∀ steps ts, ((s :: ss).flatMap tokens).length < steps →
      ∃ e es, Executable.Selection.parseList steps ((s :: ss).flatMap tokens ++ .braceR :: ts) =
          some (e :: es, ts) ∧
        Selection.ofExecutables (e :: es) = (s :: ss).map (map Argument.sorted) := by
  induction ss generalizing s with
  | nil =>
    intro steps ts hsteps
    simp only [List.flatMap_cons, List.flatMap_nil, List.append_nil] at hsteps ⊢
    cases steps with
    | zero => omega
    | succ steps =>
      obtain ⟨e, hparse, he⟩ := h s (by simp) steps (.braceR :: ts) (by omega) rfl nofun
      refine ⟨e, [], ?_, by simp [ofExecutables, he]⟩
      rw [Executable.Selection.parseList, hparse]
  | cons t ts' ih =>
    intro steps ts hsteps
    rw [List.flatMap_cons, List.append_assoc]
    rw [List.flatMap_cons, List.length_append] at hsteps
    obtain ⟨name, rest, hname⟩ := tokens_cons (hf t (by simp))
    obtain ⟨first, front, hfirst⟩ := tokens_cons (hf s (by simp))
    have hpos : 0 < s.tokens.length := by simp [hfirst]
    cases steps with
    | zero => omega
    | succ steps =>
      have hnext : (t :: ts').flatMap tokens ++ .braceR :: ts =
          .name name :: (rest ++ (ts'.flatMap tokens ++ .braceR :: ts)) := by
        simp [hname]
      obtain ⟨e, es, hmore, hes⟩ := ih (s := t) (fun u hu => h u (by simp [List.mem_cons.mp hu]))
        (fun u hu => hf u (by simp [List.mem_cons.mp hu])) steps ts (by omega)
      obtain ⟨e', hparse, he'⟩ := h s (by simp) steps ((t :: ts').flatMap tokens ++ .braceR :: ts)
        (by omega) (by rw [hnext]; rfl) (by rw [hnext]; nofun)
      refine ⟨e', e :: es, ?_, by rw [ofExecutables, he', hes]; rfl⟩
      rw [Executable.Selection.parseList, hparse]
      rw [hnext] at hmore ⊢
      simp only [hmore]

theorem Directive.readBy {ds : List Directive} (h : ∀ d ∈ ds, d.isPrintable = true) :
    ∀ a ∈ allArguments ds, a.value.ReadBy false := by
  intro a ha
  obtain ⟨d, hd, ha⟩ := List.mem_flatMap.mp ha
  have hprintable := h d hd
  simp only [isPrintable, Bool.and_eq_true, List.all_eq_true, Argument.isPrintable] at hprintable
  exact Value.readBy (hprintable.2 a ha).2 (by simp)

theorem Field.readBy {f : Field} (h : f.isPrintable = true) :
    ∀ a ∈ f.allArguments, a.value.ReadBy false := by
  simp only [isPrintable, Bool.and_eq_true, List.all_eq_true] at h
  intro a ha
  rcases List.mem_append.mp ha with ha | ha
  · have hprintable := h.1.2 a ha
    simp only [Argument.isPrintable, Bool.and_eq_true] at hprintable
    exact Value.readBy hprintable.2 (by simp)
  · exact Directive.readBy h.2 a ha

/-- The tokens of a printable selection without verbatim nodes are parsed to its sorted form. -/
theorem Selection.readBy {s : Selection} (hp : s.everywhere isPrintable = true)
    (hf : s.everywhere isField = true) : s.ReadBy := by
  induction s using Selection.inductOn with
  | verbatim node => simp [everywhere, isField] at hf
  | leaf f =>
    intro steps ts hsteps hends hbrace
    cases steps with
    | zero =>
      obtain ⟨name, rest, hname⟩ := tokens_cons (s := .leaf f) rfl
      simp [hname] at hsteps
    | succ steps =>
      obtain ⟨first, rest, hfirst, hparse⟩ :=
        Executable.parseField_tokens (Field.readBy hp) steps hends hsteps
      refine ⟨.field (f.map Argument.sorted) [], ?_, rfl⟩
      rw [tokens, hfirst, Executable.Selection.parse, hparse]
      split
      · contradiction
      · next heq =>
        simp only [Option.some.injEq, Prod.mk.injEq] at heq
        exact absurd heq.2 (hbrace _)
      · next heq => simp_all
  | branch f children ih =>
    intro steps ts hsteps hends hbrace
    obtain ⟨hprintable, hps⟩ := everywhere_branch.mp hp
    have hfs := (everywhere_branch.mp hf).2
    simp only [isPrintable, Bool.and_eq_true] at hprintable
    cases children with
    | nil => simp at hprintable
    | cons s ss =>
      simp only [tokens, List.length_append, List.length_cons, List.length_nil] at hsteps
      cases steps with
      | zero => omega
      | succ steps =>
        have hends :
            Token.endsField (.braceL :: (listTokens (s :: ss) ++ .braceR :: ts)) = true := rfl
        obtain ⟨first, rest, hfirst, hparse⟩ :=
          Executable.parseField_tokens (Field.readBy hprintable.1) steps hends (by omega)
        obtain ⟨e, es, hmore, hes⟩ := parseList_tokens (fun t ht => ih t ht (hps t ht) (hfs t ht))
          (fun t ht => everywhere_self (hfs t ht)) steps ts (by rw [← listTokens_eq_flatMap]; omega)
        refine ⟨.field (f.map Argument.sorted) (e :: es), ?_, ?_⟩
        · rw [tokens, List.append_assoc, List.cons_append, List.append_assoc, List.cons_append,
            List.nil_append, hfirst, Executable.Selection.parse, hparse, listTokens_eq_flatMap]
          simp only [hmore]
        · rw [ofExecutable, hes, map, mapAll_eq_map]

namespace Executable

/-- What stands behind the keyword of an operation without a name is no name. -/
theorem Operation.behind_ne_name (definitions : List VariableDefinition)
    (directives : List Directive) (ts : List Token) (name : String) (more : List Token) :
    VariableDefinition.groupTokens definitions ++
      (directives.flatMap Directive.tokens ++ .braceL :: ts) ≠ .name name :: more := by
  cases definitions with
  | cons d ds => simp [VariableDefinition.groupTokens]
  | nil =>
    cases directives with
    | cons d ds => simp [VariableDefinition.groupTokens, Directive.tokens]
    | nil => simp [VariableDefinition.groupTokens]

/-- The tokens of an operation are those of one query definition, which stands for the sorted
operation. -/
theorem parse_operation {op : Operation} (hp : op.isPrintable = true)
    (hf : ∀ s ∈ op.selections, s.everywhere Selection.isField = true) (steps : Nat)
    (hsteps : op.tokens.length ≤ steps) :
    ∃ d, Definition.parse steps op.tokens = some (d, []) ∧
      Operation.ofDefinition? d = some (op.map Argument.sorted VariableDefinition.sorted) := by
  simp only [Operation.isPrintable, Bool.and_eq_true, List.all_eq_true,
    Selection.allEverywhere_iff] at hp
  obtain ⟨⟨⟨⟨-, hdefinitions⟩, hdirectives⟩, hne⟩, hselections⟩ := hp
  simp only [Operation.tokens, List.length_cons, List.length_append, List.length_nil] at hsteps
  have hdefaults : ∀ d ∈ op.definitions, ∀ v ∈ d.default, v.ReadBy true := by
    intro d hd v hv
    have hprintable := hdefinitions d hd
    simp only [VariableDefinition.isPrintable, Bool.and_eq_true] at hprintable
    have hvalue := hprintable.2
    rw [Option.mem_def.mp hv] at hvalue
    simp only [Option.all_some, Bool.and_eq_true] at hvalue
    exact Value.readBy hvalue.1 fun _ => hvalue.2
  obtain ⟨s, ss, hss⟩ : ∃ s ss, op.selections = s :: ss := by
    cases hss : op.selections with
    | nil => simp [hss] at hne
    | cons s ss => exact ⟨s, ss, rfl⟩
  obtain ⟨e, es, hset, hes⟩ := Selection.parseList_tokens
    (fun t (ht : t ∈ s :: ss) => Selection.readBy (hselections t (hss ▸ ht)) (hf t (hss ▸ ht)))
    (fun t ht => Selection.everywhere_self (hf t (hss ▸ ht))) steps []
    (by rw [← Selection.listTokens_eq_flatMap, ← hss]; omega)
  rw [← hss, ← Selection.listTokens_eq_flatMap] at hset
  generalize hbody : Token.braceL :: (Selection.listTokens op.selections ++ [.braceR]) = body at *
  have hends : Token.endsDirectives body = true := by rw [← hbody]; rfl
  have hgroup := VariableDefinition.parseGroup_tokens steps hdefaults (by omega)
    (Directive.tokens_ne_parenL op.directives hends)
  have hlist := Directive.parseList_tokens (Directive.readBy hdirectives) hends steps (by omega)
  have hparse : Selection.parseSet steps body = some (e :: es, []) := by
    rw [← hbody]
    exact hset
  have hoperation (name : Option String) : Definition.parseOperation steps .query name
      (VariableDefinition.groupTokens op.definitions ++
        (op.directives.flatMap Directive.tokens ++ body)) =
      some (.operation .query name (op.definitions.map VariableDefinition.sorted)
        (op.directives.map (Directive.map Argument.sorted)) (e :: es), []) := by
    simp only [Definition.parseOperation, hgroup, hlist, hparse]
  refine ⟨.operation .query op.name (op.definitions.map VariableDefinition.sorted)
    (op.directives.map (Directive.map Argument.sorted)) (e :: es), ?_, ?_⟩
  · rw [Operation.tokens, hbody, Operation.nameTokens]
    cases op.name with
    | none =>
      have hname := Operation.behind_ne_name op.definitions op.directives
        (Selection.listTokens op.selections ++ [.braceR])
      rw [hbody] at hname
      simp only [List.nil_append, Definition.parse, OperationKind.ofName?, ↓reduceIte]
      exact hoperation none
    | some name => exact hoperation (some name)
  · simp only [Operation.ofDefinition?, Operation.map, hes, hss, Selection.mapAll_eq_map]

end Executable

end QueryCraft
