import QueryCraft.Proofs.Document.Taking
import QueryCraft.Schema.Parser

/-!
What the parsers of schema definitions make of named tokens. The fields of a type, and their
parameters, have names, and the tokens that a parser leaves are among those it was given.
-/

namespace QueryCraft

theorem Token.named_tail {t : Token} {ts : List Token} (h : (t :: ts).all isNamed = true) :
    ts.all isNamed = true := by
  rw [List.all_cons, Bool.and_eq_true] at h
  exact h.2

/-- From named tokens the parser makes something good, and leaves named tokens. -/
def Keeps {α : Type} (good : α → Prop) (parse : List Token → Parsed α) : Prop :=
  ∀ ts a rest, parse ts = some (a, rest) → ts.all Token.isNamed = true →
    good a ∧ rest.all Token.isNamed = true

theorem Takes.keeps {α : Type} {free : Bool} {closed : Int} {good : α → Prop}
    {parse : Nat → List Token → Parsed α} {steps : Nat} (h : Takes free closed good parse steps) :
    Keeps good (parse steps) :=
  fun ts a rest hparse => (h ts a rest hparse).good

theorem Keeps.of_map {α β : Type} {good : α → Prop} {parse : List Token → Parsed α} {f : α → β}
    {ts rest : List Token} {b : β} (h : Keeps good parse)
    (hparse : (parse ts).map (fun parsed => (f parsed.1, parsed.2)) = some (b, rest))
    (hnamed : ts.all Token.isNamed = true) :
    ∃ a, good a ∧ f a = b ∧ rest.all Token.isNamed = true := by
  obtain ⟨⟨a, behind⟩, ha, heq⟩ := Option.map_eq_some_iff.mp hparse
  obtain ⟨hb, rfl⟩ := Prod.mk.inj heq
  obtain ⟨hgood, hrest⟩ := h _ _ _ ha hnamed
  exact ⟨a, hgood, hb, hrest⟩

namespace Schema

/-- A parameter that can be defined as a variable: its names are names, and its default is a
printable constant. -/
structure Parameter.Formed (p : Parameter) : Prop where
  name : Text.isName p.name = true
  type : p.type.isPrintable = true
  default : ∀ v ∈ p.default, v.Formed true

structure FieldDefinition.Formed (d : FieldDefinition) : Prop where
  name : Text.isName d.name = true
  parameters : ∀ p ∈ d.parameters, p.Formed

/-- A body whose fields, if it has any to select, are well formed. -/
def Body.Formed : Body → Prop
  | .object _ fields | .interface _ fields => ∀ d ∈ fields, d.Formed
  | _ => True

/-- What a definition says of types is well formed. -/
def Definition.Formed : Definition → Prop
  | .type d => d.body.Formed
  | .extension e => e.body.Formed
  | _ => True

theorem named_parseDescription {ts : List Token} (h : ts.all Token.isNamed = true) :
    (parseDescription ts).2.all Token.isNamed = true := by
  unfold parseDescription
  split
  · exact Token.named_tail h
  · exact h

theorem keeps_inputField (locate : Locator) (steps : Nat) :
    Keeps (fun f => f.parameter.Formed) (InputField.parse locate steps) := by
  intro ts f rest h hnamed
  have hbehind := named_parseDescription hnamed
  unfold InputField.parse at h
  split at h
  · next name ts' heq =>
    rw [heq] at hbehind
    simp only [List.all_cons, Bool.and_eq_true] at hbehind
    simp only [Option.bind_eq_bind, Option.bind_eq_some_iff, Prod.exists] at h
    obtain ⟨type, ts₁, htype, default, ts₂, hdefault, _, ts₃, hdirectives, h⟩ := h
    obtain ⟨rfl, rfl⟩ := Prod.mk.inj (Option.some.inj h)
    obtain ⟨hprintable, hts₁⟩ := (TypeRef.takes steps).keeps _ _ _ htype hbehind.2.2
    obtain ⟨hformed, hts₂⟩ := (Value.takes_default steps).keeps _ _ _ hdefault hts₁
    have hts₃ := (Directive.takes_list false steps).keeps _ _ _ hdirectives hts₂
    exact ⟨⟨hbehind.1, hprintable, hformed⟩, hts₃.2⟩
  · contradiction

theorem keeps_inputFields (locate : Locator) (isEnd : Token → Bool) (steps : Nat) :
    Keeps (fun fs => ∀ f ∈ fs, f.parameter.Formed) (InputField.parseList locate isEnd steps) := by
  induction steps with
  | zero => exact fun _ _ _ h => by contradiction
  | succ steps ih =>
    intro ts fs rest h hnamed
    unfold InputField.parseList at h
    split at h
    · contradiction
    · contradiction
    · next f t ts' hparse =>
      obtain ⟨hformed, hbehind⟩ := keeps_inputField locate steps _ _ _ hparse hnamed
      split at h
      · obtain ⟨rfl, rfl⟩ := Prod.mk.inj (Option.some.inj h)
        exact ⟨by simpa using hformed, Token.named_tail hbehind⟩
      · obtain ⟨fs', hformeds, rfl, hrest⟩ := ih.of_map h hbehind
        exact ⟨List.forall_mem_cons.mpr ⟨hformed, hformeds⟩, hrest⟩

theorem keeps_parameters (locate : Locator) (steps : Nat) :
    Keeps (fun fs => ∀ f ∈ fs, f.parameter.Formed) (parseParameters locate steps) := by
  intro ts fs rest h hnamed
  unfold parseParameters at h
  split at h
  · exact keeps_inputFields locate isParenR steps _ _ _ h hnamed
  · obtain ⟨rfl, rfl⟩ := Prod.mk.inj (Option.some.inj h)
    exact ⟨nofun, hnamed⟩

theorem keeps_fieldDefinition (locate : Locator) (steps : Nat) :
    Keeps FieldDefinition.Formed (FieldDefinition.parse locate steps) := by
  intro ts d rest h hnamed
  have hbehind := named_parseDescription hnamed
  unfold FieldDefinition.parse at h
  split at h
  · next name ts' heq =>
    rw [heq] at hbehind
    simp only [List.all_cons, Bool.and_eq_true] at hbehind
    split at h
    · next parameters ts₁ hparameters =>
      obtain ⟨hformed, hts₁⟩ := keeps_parameters locate steps _ _ _ hparameters hbehind.2
      simp only [Option.bind_eq_bind, Option.bind_eq_some_iff, Prod.exists] at h
      obtain ⟨type, ts₂, htype, _, ts₃, hdirectives, h⟩ := h
      obtain ⟨rfl, rfl⟩ := Prod.mk.inj (Option.some.inj h)
      have hts₂ := (TypeRef.takes steps).keeps _ _ _ htype (Token.named_tail hts₁)
      have hts₃ := (Directive.takes_list false steps).keeps _ _ _ hdirectives hts₂.2
      refine ⟨⟨hbehind.1, fun p hp => ?_⟩, hts₃.2⟩
      obtain ⟨f, hf, rfl⟩ := List.mem_map.mp hp
      exact hformed f hf
    · contradiction
  · contradiction

theorem keeps_fieldDefinitions (locate : Locator) (steps : Nat) :
    Keeps (fun ds => ∀ d ∈ ds, d.Formed) (FieldDefinition.parseList locate steps) := by
  induction steps with
  | zero => exact fun _ _ _ h => by contradiction
  | succ steps ih =>
    intro ts ds rest h hnamed
    unfold FieldDefinition.parseList at h
    split at h
    · contradiction
    · next d ts' hparse =>
      obtain ⟨rfl, rfl⟩ := Prod.mk.inj (Option.some.inj h)
      obtain ⟨hformed, hbehind⟩ := keeps_fieldDefinition locate steps _ _ _ hparse hnamed
      exact ⟨by simpa using hformed, Token.named_tail hbehind⟩
    · next d ts' _ hparse =>
      obtain ⟨hformed, hbehind⟩ := keeps_fieldDefinition locate steps _ _ _ hparse hnamed
      obtain ⟨ds', hformeds, rfl, hrest⟩ := ih.of_map h hbehind
      exact ⟨List.forall_mem_cons.mpr ⟨hformed, hformeds⟩, hrest⟩

theorem keeps_fieldBlock (locate : Locator) (steps : Nat) :
    Keeps (fun ds => ∀ d ∈ ds, d.Formed) (FieldDefinition.parseBlock locate steps) := by
  intro ts ds rest h hnamed
  unfold FieldDefinition.parseBlock at h
  split at h
  · exact keeps_fieldDefinitions locate steps _ _ _ h hnamed
  · obtain ⟨rfl, rfl⟩ := Prod.mk.inj (Option.some.inj h)
    exact ⟨nofun, hnamed⟩

theorem named_skipLeading (isSeparator : Token → Bool) {ts : List Token}
    (h : ts.all Token.isNamed = true) : (skipLeading isSeparator ts).all Token.isNamed = true := by
  unfold skipLeading
  split
  · split
    · exact Token.named_tail h
    · exact h
  · rfl

theorem keeps_names (isSeparator : Token → Bool) (steps : Nat) :
    Keeps (fun _ => True) (parseNames isSeparator steps) := by
  induction steps with
  | zero => exact fun _ _ _ h => by contradiction
  | succ steps ih =>
    intro ts names rest h hnamed
    unfold parseNames at h
    split at h
    · next steps' s t ts' heq =>
      obtain rfl := Nat.succ.inj heq
      simp only [List.all_cons, Bool.and_eq_true] at hnamed
      split at h
      · obtain ⟨-, -, -, hrest⟩ := ih.of_map h hnamed.2.2
        exact ⟨trivial, hrest⟩
      · obtain ⟨rfl, rfl⟩ := Prod.mk.inj (Option.some.inj h)
        exact ⟨trivial, by simp [hnamed]⟩
    · obtain ⟨rfl, rfl⟩ := Prod.mk.inj (Option.some.inj h)
      exact ⟨trivial, rfl⟩
    · contradiction

theorem keeps_interfaces (steps : Nat) : Keeps (fun _ => True) (parseInterfaces steps) := by
  intro ts names rest h hnamed
  unfold parseInterfaces at h
  split at h
  · split at h
    · simp only [List.all_cons, Bool.and_eq_true] at hnamed
      exact keeps_names isAmp steps _ _ _ h (named_skipLeading isAmp hnamed.2)
    · obtain ⟨rfl, rfl⟩ := Prod.mk.inj (Option.some.inj h)
      exact ⟨trivial, hnamed⟩
  · obtain ⟨rfl, rfl⟩ := Prod.mk.inj (Option.some.inj h)
    exact ⟨trivial, hnamed⟩

theorem keeps_members (steps : Nat) : Keeps (fun _ => True) (parseMembers steps) := by
  intro ts names rest h hnamed
  unfold parseMembers at h
  split at h
  · exact keeps_names isPipe steps _ _ _ h (named_skipLeading isPipe hnamed)
  · obtain ⟨rfl, rfl⟩ := Prod.mk.inj (Option.some.inj h)
    exact ⟨trivial, hnamed⟩

theorem keeps_enumValues (steps : Nat) : Keeps (fun _ => True) (parseEnumValues steps) := by
  induction steps with
  | zero => exact fun _ _ _ h => by contradiction
  | succ steps ih =>
    intro ts names rest h hnamed
    have hbehind := named_parseDescription hnamed
    unfold parseEnumValues at h
    split at h
    · next s ts' heq =>
      rw [heq] at hbehind
      simp only [List.all_cons, Bool.and_eq_true] at hbehind
      split at h
      · contradiction
      · next ds ts₁ hdirectives =>
        obtain ⟨rfl, rfl⟩ := Prod.mk.inj (Option.some.inj h)
        have hts₁ := (Directive.takes_list false steps).keeps _ _ _ hdirectives hbehind.2
        exact ⟨trivial, Token.named_tail hts₁.2⟩
      · next ds ts₁ _ hdirectives =>
        have hts₁ := (Directive.takes_list false steps).keeps _ _ _ hdirectives hbehind.2
        obtain ⟨-, -, -, hrest⟩ := ih.of_map h hts₁.2
        exact ⟨trivial, hrest⟩
    · contradiction

theorem keeps_body (locate : Locator) (steps : Nat) (keyword : Keyword) :
    Keeps (fun b => b.1.Formed) (Body.parse locate steps keyword) := by
  intro ts b rest h hnamed
  have hdirectives := (Directive.takes_list false steps).keeps
  cases keyword with
  | scalar =>
    simp only [Body.parse, Option.bind_eq_bind, Option.bind_some, Option.bind_eq_some_iff,
      Prod.exists] at h
    obtain ⟨directives, ts₁, hts₁, h⟩ := h
    obtain ⟨rfl, rfl⟩ := Prod.mk.inj (Option.some.inj h)
    exact ⟨trivial, (hdirectives _ _ _ hts₁ hnamed).2⟩
  | object | interface =>
    simp only [Body.parse, Option.bind_eq_bind, Option.bind_eq_some_iff, Prod.exists] at h
    obtain ⟨interfaces, ts₁, hts₁, directives, ts₂, hts₂, fields, ts₃, hts₃, h⟩ := h
    obtain ⟨rfl, rfl⟩ := Prod.mk.inj (Option.some.inj h)
    have hnamed₁ := (keeps_interfaces steps _ _ _ hts₁ hnamed).2
    have hnamed₂ := (hdirectives _ _ _ hts₂ hnamed₁).2
    exact keeps_fieldBlock locate steps _ _ _ hts₃ hnamed₂
  | union =>
    simp only [Body.parse, Option.bind_eq_bind, Option.bind_some, Option.bind_eq_some_iff,
      Prod.exists] at h
    obtain ⟨directives, ts₁, hts₁, members, ts₂, hts₂, h⟩ := h
    obtain ⟨rfl, rfl⟩ := Prod.mk.inj (Option.some.inj h)
    exact ⟨trivial, (keeps_members steps _ _ _ hts₂ (hdirectives _ _ _ hts₁ hnamed).2).2⟩
  | enum =>
    simp only [Body.parse, Option.bind_eq_bind, Option.bind_some, Option.bind_eq_some_iff,
      Prod.exists] at h
    obtain ⟨directives, ts₁, hts₁, h⟩ := h
    have hnamed₁ := (hdirectives _ _ _ hts₁ hnamed).2
    split at h
    · simp only [Option.bind_eq_some_iff, Prod.exists] at h
      obtain ⟨values, ts₂, hts₂, h⟩ := h
      obtain ⟨rfl, rfl⟩ := Prod.mk.inj (Option.some.inj h)
      exact ⟨trivial, (keeps_enumValues steps _ _ _ hts₂ hnamed₁).2⟩
    · obtain ⟨rfl, rfl⟩ := Prod.mk.inj (Option.some.inj h)
      exact ⟨trivial, hnamed₁⟩
  | input =>
    simp only [Body.parse, Option.bind_eq_bind, Option.bind_some, Option.bind_eq_some_iff,
      Prod.exists] at h
    obtain ⟨directives, ts₁, hts₁, h⟩ := h
    have hnamed₁ := (hdirectives _ _ _ hts₁ hnamed).2
    split at h
    · simp only [Option.bind_eq_some_iff, Prod.exists] at h
      obtain ⟨fields, ts₂, hts₂, h⟩ := h
      obtain ⟨rfl, rfl⟩ := Prod.mk.inj (Option.some.inj h)
      exact ⟨trivial, (keeps_inputFields locate isBraceR steps _ _ _ hts₂ hnamed₁).2⟩
    · obtain ⟨rfl, rfl⟩ := Prod.mk.inj (Option.some.inj h)
      exact ⟨trivial, hnamed₁⟩

theorem keeps_typeDefinition (locate : Locator) (steps : Nat) (description : Option String) :
    Keeps (fun d => d.body.Formed) (TypeDefinition.parse locate steps description) := by
  intro ts d rest h hnamed
  unfold TypeDefinition.parse at h
  split at h
  · simp only [Option.bind_eq_bind, Option.bind_eq_some_iff, Prod.exists] at h
    obtain ⟨keyword, -, body, _, ts', hbody, h⟩ := h
    obtain ⟨rfl, rfl⟩ := Prod.mk.inj (Option.some.inj h)
    simp only [List.all_cons, Bool.and_eq_true] at hnamed
    exact keeps_body locate steps keyword _ _ _ hbody hnamed.2.2
  · contradiction

theorem keeps_typeExtension (locate : Locator) (steps : Nat) :
    Keeps (fun e => e.body.Formed) (TypeExtension.parse locate steps) := by
  intro ts e rest h hnamed
  unfold TypeExtension.parse at h
  split at h
  · simp only [Option.bind_eq_bind, Option.bind_eq_some_iff, Prod.exists] at h
    obtain ⟨keyword, -, body, _, ts', hbody, h⟩ := h
    split at h
    · obtain ⟨rfl, rfl⟩ := Prod.mk.inj (Option.some.inj h)
      simp only [List.all_cons, Bool.and_eq_true] at hnamed
      exact keeps_body locate steps keyword _ _ _ hbody hnamed.2.2
    · contradiction
  · contradiction

theorem named_parseOperations {seen : List String} {query found : Option String}
    {ts rest : List Token} (h : parseOperations seen query ts = some (found, rest))
    (hnamed : ts.all Token.isNamed = true) : rest.all Token.isNamed = true := by
  fun_induction parseOperations seen query ts with
  | case1 =>
    obtain ⟨-, rfl⟩ := Prod.mk.inj (Option.some.inj h)
    exact Token.named_tail hnamed
  | case2 => contradiction
  | case3 _ _ _ _ _ ih =>
    simp only [List.all_cons, Bool.and_eq_true] at hnamed
    exact ih h hnamed.2.2.2
  | case4 _ _ _ _ _ _ _ _ ih =>
    simp only [List.all_cons, Bool.and_eq_true] at hnamed
    exact ih h hnamed.2.2.2
  | case5 => contradiction
  | case6 => contradiction

theorem named_parseLocations {steps : Nat} {ts rest : List Token}
    (h : parseLocations steps ts = some rest) (hnamed : ts.all Token.isNamed = true) :
    rest.all Token.isNamed = true := by
  have hnames {ts : List Token} (hnamed : ts.all Token.isNamed = true)
      (h : (parseNames isPipe steps (skipLeading isPipe ts)).bind (fun parsed =>
        if parsed.1.all isLocation then some parsed.2 else none) = some rest) :
      rest.all Token.isNamed = true := by
    simp only [Option.bind_eq_some_iff, Prod.exists] at h
    obtain ⟨locations, ts', hlocations, h⟩ := h
    split at h
    · obtain rfl := Option.some.inj h
      exact (keeps_names isPipe steps _ _ _ hlocations (named_skipLeading isPipe hnamed)).2
    · contradiction
  unfold parseLocations at h
  split at h
  · exact hnames hnamed h
  · exact hnames hnamed h
  · obtain rfl := Option.some.inj h
    exact hnamed

theorem named_parseDirectiveDefinition {locate : Locator} {steps : Nat} {ts rest : List Token}
    (h : parseDirectiveDefinition locate steps ts = some rest)
    (hnamed : ts.all Token.isNamed = true) : rest.all Token.isNamed = true := by
  unfold parseDirectiveDefinition at h
  split at h
  · simp only [List.all_cons, Bool.and_eq_true] at hnamed
    simp only [Option.bind_eq_bind, Option.bind_eq_some_iff, Prod.exists] at h
    obtain ⟨parameters, ts', hparameters, h⟩ := h
    have hts' := (keeps_parameters locate steps _ _ _ hparameters hnamed.2.2).2
    split at h
    · simp only [List.all_cons, Bool.and_eq_true] at hts'
      split at h
      · exact named_parseLocations h hts'.2.2
      · split at h
        · exact named_parseLocations h (by simpa using hts'.2)
        · contradiction
    · split at h
      · exact named_parseLocations h (Token.named_tail hts')
      · contradiction
    · contradiction
  · contradiction

theorem keeps_described (locate : Locator) (steps : Nat) (description : Option String) :
    Keeps Definition.Formed (Definition.parseDescribed locate steps description) := by
  intro ts d rest h hnamed
  unfold Definition.parseDescribed at h
  split at h
  · split at h
    · obtain ⟨ts', hdirective, h⟩ := Option.map_eq_some_iff.mp h
      obtain ⟨rfl, rfl⟩ := Prod.mk.inj h
      exact ⟨trivial,
        named_parseDirectiveDefinition hdirective (Token.named_tail hnamed)⟩
    · obtain ⟨d', hd', rfl, hrest⟩ :=
        (keeps_typeDefinition locate steps description).of_map h hnamed
      exact ⟨hd', hrest⟩
  · contradiction

theorem keeps_definition (locate : Locator) (steps : Nat) :
    Keeps Definition.Formed (Definition.parse locate steps) := by
  intro ts d rest h hnamed
  unfold Definition.parse at h
  split at h
  · exact keeps_described locate steps _ _ _ _ h (Token.named_tail hnamed)
  · have hbehind := Token.named_tail hnamed
    split at h
    · split at h
      · next ts' hdirectives =>
        have hts' := ((Directive.takes_list false steps).keeps _ _ _ hdirectives hbehind).2
        obtain ⟨⟨query, ts''⟩, hoperations, h⟩ := Option.map_eq_some_iff.mp h
        obtain ⟨rfl, rfl⟩ := Prod.mk.inj h
        exact ⟨trivial, named_parseOperations hoperations (Token.named_tail hts')⟩
      · contradiction
    · split at h
      · obtain ⟨e, he, rfl, hrest⟩ := (keeps_typeExtension locate steps).of_map h hbehind
        exact ⟨he, hrest⟩
      · exact keeps_described locate steps none _ _ _ h hnamed
  · contradiction

theorem formed_of_parseAll {locate : Locator} {steps : Nat} {ts : List Token}
    {ds : List Definition} (h : Definition.parseAll locate steps ts = some ds)
    (hnamed : ts.all Token.isNamed = true) : ∀ d ∈ ds, d.Formed := by
  induction steps generalizing ts ds with
  | zero => contradiction
  | succ steps ih =>
    unfold Definition.parseAll at h
    split at h
    · contradiction
    · next d hparse =>
      obtain rfl := Option.some.inj h
      simpa using (keeps_definition locate steps _ _ _ hparse hnamed).1
    · next d behind _ hparse =>
      obtain ⟨ds, hparses, rfl⟩ := Option.map_eq_some_iff.mp h
      obtain ⟨hd, hbehind⟩ := keeps_definition locate steps _ _ _ hparse hnamed
      exact List.forall_mem_cons.mpr ⟨hd, ih hparses hbehind⟩

/-- What the definitions of a text say of types is well formed. -/
theorem formed_of_definitions? {text : String} {ds : List Definition}
    (h : definitions? text = some ds) : ∀ d ∈ ds, d.Formed := by
  simp only [definitions?, Option.bind_eq_bind, Option.bind_eq_some_iff] at h
  obtain ⟨lexemes, hlexemes, h⟩ := h
  have htokens : Lexeme.tokens? text.toList = some (lexemes.map Lexeme.token) := by
    rw [Lexeme.tokens?, hlexemes]
    rfl
  split at h
  · exact formed_of_parseAll h (List.all_eq_true.mpr (Lexeme.isNamed_of_tokens? htokens))
  · contradiction

end Schema

end QueryCraft
