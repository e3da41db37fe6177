import QueryCraft.Proofs.Document.Layout
import QueryCraft.Proofs.Value.Rereading

/-!
The tokens that the text of a document consists of, at every indent. A text spells some tokens if it
reads as them in front of every boundary; each construct is spelled part by part. Only values can be
illegible, and an illegible value makes the whole text so.
-/

namespace QueryCraft

open Lexeme

/-- In front of a boundary the text reads as the tokens if it is legible, and else not at all. -/
def Spells (text : List Char) (legible : Bool) (tokens : List Token) : Prop :=
  ∀ cs, isBoundary cs = true →
    tokens? (text ++ cs) = if legible then (tokens? cs).map (tokens ++ ·) else none

section Spells

variable {text more : List Char} {legible moreLegible : Bool} {tokens others : List Token}

theorem Spells.nil : Spells [] true [] := by
  intro cs _
  simp

theorem Spells.name {s : String} (hs : Text.isName s = true) : Spells s.toList true [.name s] := by
  intro cs hcs
  rw [tokens?_name hs hcs]
  rfl

theorem Spells.space (h : Spells text legible tokens) : Spells (' ' :: text) legible tokens := by
  intro cs hcs
  rw [List.cons_append, tokens?_space]
  exact h cs hcs

theorem Spells.indented (indent level : Nat) (h : Spells text legible tokens) :
    Spells (margin indent level ++ text) legible tokens := by
  intro cs hcs
  rw [List.append_assoc, margin, tokens?_spaces]
  exact h cs hcs

theorem Spells.punctuator {c : Char} {t : Token} (hc : Token.punctuator? c = some t)
    (h : Spells text legible tokens) : Spells (c :: text) legible (t :: tokens) := by
  intro cs hcs
  rw [List.cons_append, tokens?_punctuator _ hc, h cs hcs]
  cases legible <;> simp [Function.comp_def]

theorem isBoundary_append {cs : List Char} (h : isBoundary text = true)
    (hcs : isBoundary cs = true) : isBoundary (text ++ cs) = true := by
  cases text with
  | nil => exact hcs
  | cons c text => exact h

/-- A text that starts with a boundary, or is empty, can stand behind another. -/
theorem Spells.append (h : Spells text legible tokens) (hmore : Spells more moreLegible others)
    (hboundary : isBoundary more = true) :
    Spells (text ++ more) (legible && moreLegible) (tokens ++ others) := by
  intro cs hcs
  rw [List.append_assoc, h _ (isBoundary_append hboundary hcs), hmore cs hcs]
  cases legible <;> cases moreLegible <;> simp [Function.comp_def]

/-- A text between two brackets. -/
theorem Spells.bracketed {l r : Char} {tl tr : Token} (hl : Token.punctuator? l = some tl)
    (hr : Token.punctuator? r = some tr) (hends : endsNumber r = true)
    (h : Spells text legible tokens) :
    Spells (l :: (text ++ [r])) legible (tl :: (tokens ++ [tr])) := by
  have hclosed : Spells (text ++ [r]) (legible && true) (tokens ++ [tr]) :=
    h.append (.punctuator hr .nil) hends
  rw [Bool.and_true] at hclosed
  exact .punctuator hl hclosed

/-- A name, a colon and a space in front of a text. -/
theorem Spells.labeled {name : String} (hname : Text.isName name = true)
    (h : Spells text legible tokens) :
    Spells (name.toList ++ ':' :: ' ' :: text) legible (.name name :: .colon :: tokens) :=
  .append (.name hname) (.punctuator rfl (.space h)) rfl

/-- Texts separated by commas spell their tokens one after the other. -/
theorem Spells.join {α : Type} {chars : α → List Char} {legible : α → Bool}
    {tokens : α → List Token} {as : List α}
    (h : ∀ a ∈ as, Spells (chars a) (legible a) (tokens a)) :
    Spells (Text.join [',', ' '] (as.map chars)) (as.all legible) (as.flatMap tokens) := by
  induction as with
  | nil => exact .nil
  | cons a as ih =>
    have ha : Spells (chars a) (legible a) (tokens a) := h a (by simp)
    have has := ih fun b hb => h b (by simp [hb])
    cases as with
    | nil => simpa [Text.join] using ha
    | cons b bs =>
      have hcomma : Spells (',' :: ' ' :: Text.join [',', ' '] ((b :: bs).map chars))
          ((b :: bs).all legible) ((b :: bs).flatMap tokens) := by
        intro cs hcs
        rw [List.cons_append, List.cons_append, tokens?_comma, tokens?_space]
        exact has cs hcs
      simpa [Text.join] using ha.append hcomma rfl

end Spells

namespace Value

mutual

/-- The tokens of the text of a value. -/
def tokens : Value → List Token
  | .null => [.name "null"]
  | .boolean true => [.name "true"]
  | .boolean false => [.name "false"]
  | .int n => [.int n]
  | .float x => [.float x]
  | .string text => [.string text]
  | .enum name => [.name name]
  | .var name => [.dollar, .name name]
  | .list items => .bracketL :: (itemTokens items ++ [.bracketR])
  | .object entries => .braceL :: (entryTokens entries ++ [.braceR])

def itemTokens : List Value → List Token
  | [] => []
  | v :: vs => tokens v ++ itemTokens vs

def entryTokens : List (String × Value) → List Token
  | [] => []
  | (k, v) :: es => .name k :: .colon :: (tokens v ++ entryTokens es)

end

theorem itemTokens_eq_flatMap (items : List Value) : itemTokens items = items.flatMap tokens := by
  induction items with
  | nil => rfl
  | cons v vs ih => simp [itemTokens, ih]

/-- The tokens of an entry of an object. -/
def pairTokens (e : String × Value) : List Token :=
  .name e.1 :: .colon :: e.2.tokens

theorem entryTokens_eq_flatMap (entries : List (String × Value)) :
    entryTokens entries = entries.flatMap pairTokens := by
  induction entries with
  | nil => rfl
  | cons e es ih => simp [entryTokens, pairTokens, ih]

end Value

theorem Value.tokens_ofName (s : String) : (ofName s).tokens = [.name s] := by
  unfold ofName
  split
  · next h => rw [h]; rfl
  · split
    · next h => rw [h]; rfl
    · split
      · next h => rw [h]; rfl
      · rfl

/-- The text of a double spells one token or is illegible. -/
theorem Value.spells_float (x : Float) :
    Spells (chars (.float x)) (isLegible (.float x)) (reread (.float x)).tokens := by
  intro cs hcs
  rw [chars, isLegible, reread_float, rereadFloat?]
  rcases Number.FloatStyle.value.write_cases x with hx | hx | hx
  · rw [hx, tokens?_name (by decide) hcs, tokens?_name_alone (by decide)]
    simp [tokens_ofName]
  · rw [hx, tokens?_name (by decide) hcs, tokens?_name_alone (by decide)]
    simp [tokens_ofName]
  · rw [tokens?_numeral hx hcs, tokens?_numeral_alone hx]
    cases htoken : numberToken? (Number.FloatStyle.value.write x) with
    | none => rfl
    | some t => rcases numberToken?_cases htoken with ⟨n, rfl⟩ | ⟨y, rfl⟩ <;> rfl

/-- A printable value spells the tokens of what it is read as. -/
theorem Value.spells {v : Value} (hp : v.isPrintable = true) :
    Spells v.chars (v.everywhere isLegible) v.reread.tokens := by
  induction v using Value.inductOn with
  | null => exact Spells.name (s := "null") (by decide)
  | boolean b =>
    cases b with
    | false => exact Spells.name (s := "false") (by decide)
    | true => exact Spells.name (s := "true") (by decide)
  | int n =>
    intro cs hcs
    rw [chars, tokens?_int n hcs]
    rfl
  | float x => exact spells_float x
  | string text =>
    intro cs hcs
    rw [chars, tokens?_string text hcs]
    rfl
  | enum name =>
    have hname : Text.isName name = true := by
      simp only [isPrintable, everywhere, isNamed, Text.isEnumName, Bool.and_eq_true] at hp
      exact hp.1.1.1
    exact Spells.name hname
  | var name => exact Spells.punctuator rfl (Spells.name hp)
  | list items ih =>
    obtain ⟨-, hitems⟩ := everywhere_list.mp hp
    rw [chars, reread_list, tokens, itemChars_eq_join, itemTokens_eq_flatMap, List.flatMap_map,
      everywhere_list_eq_all]
    exact Spells.bracketed rfl rfl rfl (Spells.join fun v hv => ih v hv (hitems v hv))
  | object entries ih =>
    obtain ⟨hkeys, hentries⟩ := everywhere_object.mp hp
    simp only [isNamed, List.all_eq_true] at hkeys
    rw [chars, reread_object, tokens, entryChars_eq_join, entryTokens_eq_flatMap, List.flatMap_map,
      everywhere_object_eq_all]
    exact Spells.bracketed rfl rfl rfl
      (Spells.join fun e he => Spells.labeled (hkeys e he) (ih e he (hentries e he)))

def Argument.tokens (a : Argument) : List Token :=
  .name a.name :: .colon :: a.value.tokens

/-- Arguments in parentheses, or nothing. -/
def Argument.groupTokens : List Argument → List Token
  | [] => []
  | as => .parenL :: (as.flatMap tokens ++ [.parenR])

def Directive.tokens (d : Directive) : List Token :=
  .atSign :: .name d.name :: Argument.groupTokens d.arguments

def Field.aliasTokens (f : Field) : List Token :=
  match f.aliasName with
  | none => []
  | some a => [.name a, .colon]

def Field.tokens (f : Field) : List Token :=
  f.aliasTokens ++ .name f.name ::
    (Argument.groupTokens f.arguments ++ f.directives.flatMap Directive.tokens)

def TypeRef.bangTokens (nullable : Bool) : List Token :=
  if nullable then [] else [.bang]

def TypeRef.tokens : TypeRef → List Token
  | .named name nullable => .name name :: bangTokens nullable
  | .list inner nullable => .bracketL :: (inner.tokens ++ .bracketR :: bangTokens nullable)

def VariableDefinition.defaultTokens (d : VariableDefinition) : List Token :=
  match d.default with
  | none => []
  | some v => .equals :: v.tokens

def VariableDefinition.tokens (d : VariableDefinition) : List Token :=
  .dollar :: .name d.name :: .colon :: (d.type.tokens ++ d.defaultTokens)

/-- Definitions in parentheses, or nothing. -/
def VariableDefinition.groupTokens : List VariableDefinition → List Token
  | [] => []
  | ds => .parenL :: (ds.flatMap tokens ++ [.parenR])

mutual

/-- The tokens of a selection; those of a verbatim node are not known. -/
def Selection.tokens : Selection → List Token
  | .leaf f | .branch f [] => f.tokens
  | .branch f (s :: ss) => f.tokens ++ .braceL :: (Selection.listTokens (s :: ss) ++ [.braceR])
  | .verbatim _ => []

def Selection.listTokens : List Selection → List Token
  | [] => []
  | s :: ss => Selection.tokens s ++ Selection.listTokens ss

end

def Operation.nameTokens (op : Operation) : List Token :=
  match op.name with
  | none => []
  | some name => [.name name]

def Operation.tokens (op : Operation) : List Token :=
  .name "query" :: (op.nameTokens ++ (VariableDefinition.groupTokens op.definitions ++
    (op.directives.flatMap Directive.tokens ++
      .braceL :: (Selection.listTokens op.selections ++ [.braceR]))))

theorem Argument.listChars_eq_join (as : List Argument) :
    Argument.listChars as = Text.join [',', ' '] (as.map Argument.chars) := by
  induction as with
  | nil => rfl
  | cons a as ih =>
    cases as with
    | nil => rfl
    | cons b bs => simp [listChars, Text.join, ih]

theorem VariableDefinition.listChars_eq_join (ds : List VariableDefinition) :
    VariableDefinition.listChars ds = Text.join [',', ' '] (ds.map VariableDefinition.chars) := by
  induction ds with
  | nil => rfl
  | cons d ds ih =>
    cases ds with
    | nil => rfl
    | cons e es => simp [listChars, Text.join, ih]

theorem Selection.listTokens_eq_flatMap (ss : List Selection) :
    listTokens ss = ss.flatMap tokens := by
  induction ss with
  | nil => rfl
  | cons s ss ih => simp [listTokens, ih]

theorem Selection.listChars_eq_flatMap (indent level : Nat) (ss : List Selection) :
    listChars indent level ss = ss.flatMap (chars indent level) := by
  induction ss with
  | nil => rfl
  | cons s ss ih => simp [listChars, ih]

/-- Whether the value of an argument can be read. -/
def Argument.isLegible (a : Argument) : Bool :=
  a.value.everywhere Value.isLegible

/-- The argument with the value that its text is read as. -/
def Argument.reread (a : Argument) : Argument :=
  { a with value := a.value.reread }

def VariableDefinition.isLegible (d : VariableDefinition) : Bool :=
  d.default.all fun v => v.everywhere Value.isLegible

def VariableDefinition.reread (d : VariableDefinition) : VariableDefinition :=
  { d with default := d.default.map Value.reread }

theorem Argument.spells {a : Argument} (hp : a.isPrintable = true) :
    Spells a.chars a.isLegible a.reread.tokens := by
  simp only [isPrintable, Bool.and_eq_true] at hp
  exact Spells.labeled hp.1 (Value.spells hp.2)

/-- A group of arguments spells its tokens. -/
theorem Argument.spells_group {as : List Argument} (hp : ∀ a ∈ as, a.isPrintable = true) :
    Spells (groupChars as) (as.all isLegible) (groupTokens (as.map reread)) := by
  cases as with
  | nil => exact Spells.nil
  | cons a as =>
    have hlist : Spells (listChars (a :: as)) ((a :: as).all isLegible)
        (((a :: as).map reread).flatMap tokens) := by
      rw [listChars_eq_join, List.flatMap_map]
      exact Spells.join fun b hb => spells (hp b hb)
    exact Spells.bracketed rfl rfl rfl hlist

theorem Argument.isBoundary_group (as : List Argument) : isBoundary (groupChars as) = true := by
  cases as <;> rfl

theorem Directive.spells {d : Directive} (hp : d.isPrintable = true) :
    Spells d.chars (d.arguments.all Argument.isLegible) (d.map Argument.reread).tokens := by
  simp only [isPrintable, Bool.and_eq_true, List.all_eq_true] at hp
  have hname : Spells d.name.toList true [.name d.name] := Spells.name hp.1
  have hgroup := Argument.spells_group hp.2
  exact Spells.punctuator rfl (hname.append hgroup (Argument.isBoundary_group d.arguments))

theorem Directive.isBoundary_list (ds : List Directive) : isBoundary (listChars ds) = true := by
  cases ds <;> rfl

theorem Directive.spells_list {ds : List Directive} (hp : ∀ d ∈ ds, d.isPrintable = true) :
    Spells (listChars ds) ((allArguments ds).all Argument.isLegible)
      ((ds.map (map Argument.reread)).flatMap tokens) := by
  induction ds with
  | nil => exact Spells.nil
  | cons d ds ih =>
    have hd := Directive.spells (hp d (by simp))
    have hds := ih fun e he => hp e (by simp [he])
    rw [allArguments, List.flatMap_cons, List.all_append]
    exact Spells.space (hd.append hds (isBoundary_list ds))

theorem Field.spells {f : Field} (hp : f.isPrintable = true) :
    Spells f.chars (f.allArguments.all Argument.isLegible) (f.map Argument.reread).tokens := by
  simp only [isPrintable, Bool.and_eq_true, List.all_eq_true] at hp
  obtain ⟨⟨⟨halias, hname⟩, harguments⟩, hdirectives⟩ := hp
  have hbehind := (Argument.spells_group harguments).append (Directive.spells_list hdirectives)
    (Directive.isBoundary_list f.directives)
  have hrest := (Spells.name hname).append hbehind
    (isBoundary_append (Argument.isBoundary_group _) (Directive.isBoundary_list _))
  rw [Bool.true_and, ← List.all_append] at hrest
  unfold chars tokens aliasChars aliasTokens
  simp only [map]
  cases halias' : f.aliasName with
  | none => exact hrest
  | some a =>
    rw [halias'] at halias
    have hlabeled := Spells.labeled halias hrest
    simpa [allArguments] using hlabeled

theorem TypeRef.spells {t : TypeRef} (hp : t.isPrintable = true) :
    Spells t.chars true t.tokens := by
  have hbang (nullable : Bool) : Spells (bang nullable) true (bangTokens nullable) := by
    cases nullable with
    | false => exact Spells.punctuator rfl Spells.nil
    | true => exact Spells.nil
  have hboundary (nullable : Bool) : isBoundary (bang nullable) = true := by
    cases nullable <;> rfl
  induction t with
  | named name nullable =>
    have hname : Spells name.toList true [.name name] := Spells.name hp
    exact hname.append (hbang nullable) (hboundary nullable)
  | list inner nullable ih =>
    have hclose : Spells (']' :: bang nullable) true (.bracketR :: bangTokens nullable) :=
      Spells.punctuator rfl (hbang nullable)
    exact Spells.punctuator rfl ((ih hp).append hclose rfl)

theorem VariableDefinition.spells {d : VariableDefinition} (hp : d.isPrintable = true) :
    Spells d.chars d.isLegible d.reread.tokens := by
  simp only [isPrintable, Bool.and_eq_true] at hp
  obtain ⟨⟨hname, htype⟩, hdefault⟩ := hp
  have hspell : Spells (d.type.chars ++ d.defaultChars) d.isLegible
      (d.type.tokens ++ d.reread.defaultTokens) := by
    unfold defaultChars defaultTokens isLegible reread
    cases hd : d.default with
    | none => exact (TypeRef.spells htype).append Spells.nil rfl
    | some v =>
      rw [hd] at hdefault
      simp only [Option.all_some, Bool.and_eq_true] at hdefault
      have hspaced := Spells.space (Value.spells hdefault.1)
      have hvalue := Spells.space (Spells.punctuator (c := '=') rfl hspaced)
      exact (TypeRef.spells htype).append hvalue rfl
  exact Spells.punctuator rfl (Spells.labeled hname hspell)

theorem VariableDefinition.spells_group {ds : List VariableDefinition}
    (hp : ∀ d ∈ ds, d.isPrintable = true) :
    Spells (groupChars ds) (ds.all isLegible) (groupTokens (ds.map reread)) := by
  cases ds with
  | nil => exact Spells.nil
  | cons d ds =>
    have hlist : Spells (listChars (d :: ds)) ((d :: ds).all isLegible)
        (((d :: ds).map reread).flatMap tokens) := by
      rw [listChars_eq_join, List.flatMap_map]
      exact Spells.join fun e he => spells (hp e he)
    exact Spells.bracketed rfl rfl rfl hlist

/-- The text reads as the tokens whatever follows it, if it is legible. -/
def SpellsLines (text : List Char) (legible : Bool) (tokens : List Token) : Prop :=
  ∀ cs, tokens? (text ++ cs) = if legible then (tokens? cs).map (tokens ++ ·) else none

section SpellsLines

variable {text more : List Char} {legible moreLegible : Bool} {tokens others : List Token}

/-- A line end is a boundary. -/
theorem Spells.line (h : Spells text legible tokens) :
    SpellsLines (text ++ ['\n']) legible tokens := by
  intro cs
  rw [List.append_assoc, h _ rfl, List.cons_append, List.nil_append, tokens?_newline]

theorem SpellsLines.append (h : SpellsLines text legible tokens)
    (hmore : SpellsLines more moreLegible others) :
    SpellsLines (text ++ more) (legible && moreLegible) (tokens ++ others) := by
  intro cs
  rw [List.append_assoc, h, hmore cs]
  cases legible <;> cases moreLegible <;> simp [Function.comp_def]

theorem SpellsLines.flatMap {α : Type} {chars : α → List Char} {legible : α → Bool}
    {tokens : α → List Token} {as : List α}
    (h : ∀ a ∈ as, SpellsLines (chars a) (legible a) (tokens a)) :
    SpellsLines (as.flatMap chars) (as.all legible) (as.flatMap tokens) := by
  induction as with
  | nil =>
    intro cs
    simp
  | cons a as ih =>
    have ha : SpellsLines (chars a) (legible a) (tokens a) := h a (by simp)
    exact ha.append (ih fun b hb => h b (by simp [hb]))

/-- A selection set on lines of its own, behind the text of its owner. -/
theorem Spells.set {lines : List Char} {inside : List Token} (indent level : Nat)
    (h : Spells text legible tokens) (hlines : SpellsLines lines moreLegible inside) :
    SpellsLines
      (text ++ ' ' :: '\x7b' :: '\n' :: (lines ++ (margin indent level ++ ['\x7d', '\n'])))
      (legible && moreLegible) (tokens ++ .braceL :: (inside ++ [.braceR])) := by
  have hclose : SpellsLines (margin indent level ++ ['\x7d', '\n']) true [.braceR] := by
    have hbrace : Spells (margin indent level ++ ['\x7d']) true [.braceR] :=
      Spells.indented indent level (Spells.punctuator rfl Spells.nil)
    simpa using hbrace.line
  intro cs
  have hbody := (hlines.append hclose) cs
  rw [Bool.and_true] at hbody
  rw [List.append_assoc, h _ rfl]
  simp only [List.cons_append, tokens?_space, tokens?_newline,
    tokens?_punctuator (c := '\x7b') _ rfl, hbody]
  cases legible <;> cases moreLegible <;> simp [Function.comp_def]

end SpellsLines

/-- A printable selection without verbatim nodes spells its tokens on its lines. -/
theorem Selection.spells {indent level : Nat} {s : Selection}
    (hp : s.everywhere isPrintable = true) (hf : s.everywhere isField = true) :
    SpellsLines (s.chars indent level) (s.allArguments.all Argument.isLegible)
      (s.map Argument.reread).tokens := by
  induction s using Selection.inductOn generalizing level with
  | leaf f =>
    have hfield := (Spells.indented indent level (Field.spells hp)).line
    rw [List.append_assoc] at hfield
    exact hfield
  | verbatim node => simp [everywhere, isField] at hf
  | branch f children ih =>
    obtain ⟨hprintable, hps⟩ := everywhere_branch.mp hp
    have hfs := (everywhere_branch.mp hf).2
    simp only [isPrintable, Bool.and_eq_true] at hprintable
    have hfield := Spells.indented indent level (Field.spells hprintable.1)
    have hchildren : SpellsLines (listChars indent (level + 1) children)
        (children.all fun s => s.allArguments.all Argument.isLegible)
        (listTokens (mapAll Argument.reread children)) := by
      rw [listChars_eq_flatMap, mapAll_eq_map, listTokens_eq_flatMap, List.flatMap_map]
      exact SpellsLines.flatMap fun s hs => ih s hs (hps s hs) (hfs s hs)
    cases children with
    | nil => simp at hprintable
    | cons s ss =>
      have hset := hfield.set indent level hchildren
      rw [← List.all_flatMap, ← List.all_append, ← listArguments_eq_flatMap, List.append_assoc]
        at hset
      exact hset

theorem Operation.spells_name {op : Operation} (h : op.name.all Text.isName = true) :
    Spells op.nameChars true op.nameTokens ∧ isBoundary op.nameChars = true := by
  unfold nameChars nameTokens
  cases hname : op.name with
  | none => exact ⟨Spells.nil, rfl⟩
  | some name =>
    rw [hname] at h
    exact ⟨Spells.space (Spells.name h), rfl⟩

theorem VariableDefinition.isBoundary_group (ds : List VariableDefinition) :
    isBoundary (groupChars ds) = true := by
  cases ds <;> rfl

/-- The operation with the values that its text is read as. -/
def Operation.reread (op : Operation) : Operation :=
  op.map Argument.reread VariableDefinition.reread

def Operation.isLegible (op : Operation) : Bool :=
  op.values.all fun v => v.everywhere Value.isLegible

theorem Operation.isLegible_eq (op : Operation) :
    op.isLegible = (op.definitions.all VariableDefinition.isLegible &&
      ((Directive.allArguments op.directives).all Argument.isLegible &&
        op.selections.all fun s => s.allArguments.all Argument.isLegible)) := by
  have hdefaults : (op.definitions.filterMap VariableDefinition.default).all
      (fun v => v.everywhere Value.isLegible) =
        op.definitions.all VariableDefinition.isLegible := by
    rw [List.all_filterMap]
    rfl
  rw [isLegible, values, List.all_append, List.all_map, hdefaults, Bool.and_comm, allArguments,
    Selection.listArguments_eq_flatMap, List.all_append, List.all_flatMap]
  rfl

/-- The whole text of an operation spells its tokens. -/
theorem Operation.spells {op : Operation} (indent : Nat) (hp : op.isPrintable = true)
    (hf : Selection.allEverywhere Selection.isField op.selections = true) :
    SpellsLines (op.chars indent) op.isLegible op.reread.tokens := by
  simp only [isPrintable, Bool.and_eq_true, List.all_eq_true, Selection.allEverywhere_iff] at hp hf
  obtain ⟨⟨⟨⟨hname, hdefinitions⟩, hdirectives⟩, -⟩, hselections⟩ := hp
  obtain ⟨hspell, hboundary⟩ := spells_name hname
  have hgroup := VariableDefinition.spells_group hdefinitions
  have hlist := Directive.spells_list hdirectives
  have hset : SpellsLines (Selection.listChars indent 1 op.selections)
      (op.selections.all fun s => s.allArguments.all Argument.isLegible)
      (Selection.listTokens (Selection.mapAll Argument.reread op.selections)) := by
    rw [Selection.listChars_eq_flatMap, Selection.mapAll_eq_map, Selection.listTokens_eq_flatMap,
      List.flatMap_map]
    exact SpellsLines.flatMap fun s hs => Selection.spells (hselections s hs) (hf s hs)
  -- Each part of the head, if it is there, starts with a space or a bracket, which ends the one
  -- before it.
  have hends := isBoundary_append (VariableDefinition.isBoundary_group op.definitions)
    (Directive.isBoundary_list op.directives)
  have hbehind := hspell.append (hgroup.append hlist (Directive.isBoundary_list _)) hends
  have hquery := (Spells.name (s := "query") (by decide)).append hbehind
    (isBoundary_append hboundary hends)
  have hall := hquery.set indent 0 hset
  rw [isLegible_eq]
  simpa [chars, tokens, nameTokens, reread, map, margin, Bool.and_assoc] using hall

end QueryCraft
