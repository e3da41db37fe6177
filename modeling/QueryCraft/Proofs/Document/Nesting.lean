import QueryCraft.Proofs.Document.Spelling

/-!
How many brackets of a document are open at once. The measure is read off the structure of the
document, and it is exactly what the bound on the tokens is about.
-/

namespace QueryCraft

/-- The largest measure of an element. -/
def deepest {α : Type} (measure : α → Nat) (as : List α) : Nat :=
  as.foldr (fun a n => max (measure a) n) 0

mutual

/-- How many brackets of a value are open at once. -/
def Value.nesting : Value → Nat
  | .list items => Value.itemNesting items + 1
  | .object entries => Value.entryNesting entries + 1
  | _ => 0

def Value.itemNesting : List Value → Nat
  | [] => 0
  | v :: vs => max (Value.nesting v) (Value.itemNesting vs)

def Value.entryNesting : List (String × Value) → Nat
  | [] => 0
  | (_, v) :: es => max (Value.nesting v) (Value.entryNesting es)

end

/-- The parentheses of arguments, if there are any, and the brackets within. -/
def Argument.groupNesting : List Argument → Nat
  | [] => 0
  | as => deepest (fun a => a.value.nesting) as + 1

def Directive.listNesting (ds : List Directive) : Nat :=
  deepest (fun d => Argument.groupNesting d.arguments) ds

def Field.nesting (f : Field) : Nat :=
  max (Argument.groupNesting f.arguments) (Directive.listNesting f.directives)

def TypeRef.nesting : TypeRef → Nat
  | .named _ _ => 0
  | .list inner _ => inner.nesting + 1

def VariableDefinition.nesting (d : VariableDefinition) : Nat :=
  max d.type.nesting (d.default.elim 0 Value.nesting)

def VariableDefinition.groupNesting : List VariableDefinition → Nat
  | [] => 0
  | ds => deepest nesting ds + 1

mutual

def Selection.nesting : Selection → Nat
  | .leaf f | .branch f [] => f.nesting
  | .branch f (s :: ss) => max f.nesting (Selection.listNesting (s :: ss) + 1)
  | .verbatim _ => 0

def Selection.listNesting : List Selection → Nat
  | [] => 0
  | s :: ss => max (Selection.nesting s) (Selection.listNesting ss)

end

/-- How many brackets of an operation are open at once. -/
def Operation.nesting (op : Operation) : Nat :=
  max (VariableDefinition.groupNesting op.definitions)
    (max (Directive.listNesting op.directives) (Selection.listNesting op.selections + 1))

/-- How many brackets of a document without verbatim nodes are open at once. -/
def Document.nesting (d : Document) : Nat :=
  d.operation.nesting

theorem Value.itemNesting_eq_deepest (items : List Value) :
    itemNesting items = deepest nesting items := by
  induction items with
  | nil => rfl
  | cons v vs ih =>
    rw [itemNesting, ih]
    rfl

theorem Value.entryNesting_eq_deepest (entries : List (String × Value)) :
    entryNesting entries = deepest (fun e => e.2.nesting) entries := by
  induction entries with
  | nil => rfl
  | cons e es ih =>
    rw [entryNesting, ih]
    rfl

theorem Selection.listNesting_eq_deepest (ss : List Selection) :
    listNesting ss = deepest nesting ss := by
  induction ss with
  | nil => rfl
  | cons s ss ih =>
    rw [listNesting, ih]
    rfl

theorem Selection.listLevels_eq_deepest (ss : List Selection) :
    listLevels ss = deepest levels ss := by
  induction ss with
  | nil => rfl
  | cons s ss ih =>
    rw [listLevels, ih]
    rfl

theorem deepest_le_iff {α : Type} {measure : α → Nat} {as : List α} {n : Nat} :
    deepest measure as ≤ n ↔ ∀ a ∈ as, measure a ≤ n := by
  induction as with
  | nil => simp [deepest]
  | cons a as ih =>
    rw [List.forall_mem_cons, ← ih, ← Nat.max_le]
    rfl

theorem Selection.listLevels_le_nesting {ss : List Selection}
    (h : ∀ s ∈ ss, s.levels ≤ s.nesting + 1) : listLevels ss ≤ listNesting ss + 1 := by
  rw [listLevels_eq_deepest, listNesting_eq_deepest, deepest_le_iff]
  intro s hs
  have hs' : s.nesting ≤ deepest nesting ss := deepest_le_iff.mp (Nat.le_refl _) s hs
  exact Nat.le_trans (h s hs) (Nat.succ_le_succ hs')

/-- Each level of lines but the last opens a bracket. -/
theorem Selection.levels_le_nesting (s : Selection) : s.levels ≤ s.nesting + 1 := by
  induction s using inductOn with
  | leaf f => exact Nat.le_add_left 1 _
  | verbatim node =>
    rw [levels]
    split <;> exact Nat.le_add_left _ _
  | branch f children ih =>
    cases children with
    | nil => exact Nat.le_add_left 1 _
    | cons s ss =>
      have hbelow : listLevels (s :: ss) ≤ listNesting (s :: ss) + 1 := listLevels_le_nesting ih
      rw [levels, nesting]
      omega

theorem Document.levels_le_nesting (d : Document) : d.levels ≤ d.nesting := by
  have hbelow : d.levels ≤ Selection.listNesting d.operation.selections + 1 :=
    Selection.listLevels_le_nesting fun s _ => s.levels_le_nesting
  rw [nesting, Operation.nesting]
  omega

/-- A document within the bound on brackets is printed at least up to this indent. -/
theorem Document.print?_of_nesting {d : Document} {indent : Nat}
    (hnesting : d.nesting ≤ Token.maxNesting) (hindent : indent ≤ 1310) :
    d.print? indent = some (d.toText indent) := by
  have hlevels : d.levels ≤ Token.maxNesting := Nat.le_trans d.levels_le_nesting hnesting
  apply print?_of_le
  calc d.levels * indent ≤ Token.maxNesting * 1310 := Nat.mul_le_mul hlevels hindent
    _ ≤ maxWidth := by decide

section Reread

theorem deepest_map {α β : Type} {measure : β → Nat} {f : α → β} {measure' : α → Nat} {as : List α}
    (h : ∀ a ∈ as, measure (f a) = measure' a) :
    deepest measure (as.map f) = deepest measure' as := by
  induction as with
  | nil => rfl
  | cons a as ih =>
    have ha := h a (by simp)
    have has := ih fun b hb => h b (by simp [hb])
    simp only [deepest, List.map_cons, List.foldr_cons] at has ⊢
    rw [ha, has]

/-- Reading a text changes no bracket. -/
theorem Value.nesting_reread (v : Value) : v.reread.nesting = v.nesting := by
  induction v using inductOn with
  | float x =>
    rw [reread_float]
    cases hx : rereadFloat? x with
    | none => rfl
    | some w => rcases rereadFloat?_cases hx with rfl | rfl | ⟨n, rfl⟩ | ⟨y, rfl⟩ <;> rfl
  | list items ih =>
    rw [reread_list, nesting, nesting, itemNesting_eq_deepest, itemNesting_eq_deepest,
      deepest_map ih]
  | object entries ih =>
    have hentries : deepest (fun e : String × Value => e.2.nesting)
        (entries.map fun e => (e.1, e.2.reread)) = deepest (fun e => e.2.nesting) entries :=
      deepest_map ih
    rw [reread_object, nesting, nesting, entryNesting_eq_deepest, entryNesting_eq_deepest, hentries]
  | _ => rfl

theorem Argument.groupNesting_reread (as : List Argument) :
    groupNesting (as.map reread) = groupNesting as := by
  cases as with
  | nil => rfl
  | cons a as =>
    have hdeepest : deepest (fun b => b.value.nesting) ((a :: as).map reread) =
        deepest (fun b => b.value.nesting) (a :: as) :=
      deepest_map fun b _ => b.value.nesting_reread
    exact congrArg (· + 1) hdeepest

theorem Directive.listNesting_reread (ds : List Directive) :
    listNesting (ds.map (map Argument.reread)) = listNesting ds :=
  deepest_map fun d _ => Argument.groupNesting_reread d.arguments

theorem Field.nesting_reread (f : Field) : (f.map Argument.reread).nesting = f.nesting := by
  simp only [nesting, map, Argument.groupNesting_reread, Directive.listNesting_reread]

theorem Selection.nesting_reread (s : Selection) : (s.map Argument.reread).nesting = s.nesting := by
  induction s using Selection.inductOn with
  | leaf f => exact f.nesting_reread
  | verbatim node => rfl
  | branch f children ih =>
    cases children with
    | nil => exact f.nesting_reread
    | cons s ss =>
      rw [map, mapAll_eq_map, List.map_cons, nesting, ← List.map_cons, nesting, f.nesting_reread,
        listNesting_eq_deepest, listNesting_eq_deepest, deepest_map ih]

theorem VariableDefinition.groupNesting_reread (ds : List VariableDefinition) :
    groupNesting (ds.map reread) = groupNesting ds := by
  have hnesting (d : VariableDefinition) : d.reread.nesting = d.nesting := by
    unfold nesting reread
    cases d.default with
    | none => rfl
    | some v => simp [v.nesting_reread]
  cases ds with
  | nil => rfl
  | cons d ds =>
    have hdeepest : deepest nesting ((d :: ds).map reread) = deepest nesting (d :: ds) :=
      deepest_map fun e _ => hnesting e
    exact congrArg (· + 1) hdeepest

theorem Operation.nesting_reread (op : Operation) : op.reread.nesting = op.nesting := by
  have hselections : Selection.listNesting (Selection.mapAll Argument.reread op.selections) =
      Selection.listNesting op.selections := by
    rw [Selection.mapAll_eq_map, Selection.listNesting_eq_deepest,
      Selection.listNesting_eq_deepest, deepest_map fun s _ => s.nesting_reread]
  simp only [nesting, reread, map, VariableDefinition.groupNesting_reread,
    Directive.listNesting_reread, hselections]

end Reread

namespace Token

/-- Tokens with balanced brackets, of which so many are open at once: they fit a budget if it is as
large, and they use up nothing of it. -/
def Nests (depth : Nat) (ts : List Token) : Prop :=
  ∀ budget rest,
    nestWithin budget (ts ++ rest) = (decide (depth ≤ budget) && nestWithin budget rest)

theorem Nests.nil : Nests 0 [] := by
  intro budget rest
  simp

theorem Nests.append {m n : Nat} {ts us : List Token} (h : Nests m ts) (hmore : Nests n us) :
    Nests (max m n) (ts ++ us) := by
  intro budget rest
  rw [List.append_assoc, h, hmore, ← Bool.and_assoc, ← Bool.decide_and]
  simp only [Nat.max_le]

theorem Nests.flatMap {α : Type} {measure : α → Nat} {tokens : α → List Token} {as : List α}
    (h : ∀ a ∈ as, Nests (measure a) (tokens a)) :
    Nests (deepest measure as) (as.flatMap tokens) := by
  induction as with
  | nil => exact Nests.nil
  | cons a as ih =>
    have ha : Nests (measure a) (tokens a) := h a (by simp)
    have has : Nests (deepest measure as) (as.flatMap tokens) :=
      ih fun b hb => h b (by simp [hb])
    exact ha.append has

/-- Holds of an opening bracket and the one that closes it. -/
def isPair : Token → Token → Bool
  | .parenL, .parenR | .bracketL, .bracketR | .braceL, .braceR => true
  | _, _ => false

theorem Nests.bracketed {l r : Token} {depth : Nat} {ts : List Token} (hpair : isPair l r = true)
    (h : Nests depth ts) : Nests (depth + 1) (l :: (ts ++ [r])) := by
  intro budget rest
  unfold isPair at hpair
  split at hpair
  · cases budget <;> simp [nestWithin, h _]
  · cases budget <;> simp [nestWithin, h _]
  · cases budget <;> simp [nestWithin, h _]
  · contradiction

/-- Holds of the tokens that are not brackets. -/
def isFlat : Token → Bool
  | .parenL | .parenR | .bracketL | .bracketR | .braceL | .braceR => false
  | _ => true

theorem Nests.cons {t : Token} {depth : Nat} {ts : List Token} (ht : t.isFlat = true)
    (h : Nests depth ts) : Nests depth (t :: ts) := by
  intro budget rest
  rw [← h]
  cases t <;> first | contradiction | rfl

end Token

open Token (Nests)

/-- Brackets around the items of a list or the entries of an object are open as long as theirs. -/
theorem Value.nests (v : Value) : Nests v.nesting v.tokens := by
  have hname (name : String) : Nests 0 [.name name] := Nests.cons rfl Nests.nil
  induction v using Value.inductOn with
  | null => exact hname "null"
  | boolean b => cases b <;> exact hname _
  | int n => exact Nests.cons rfl Nests.nil
  | float x => exact Nests.cons rfl Nests.nil
  | string text => exact Nests.cons rfl Nests.nil
  | enum name => exact hname name
  | var name => exact Nests.cons rfl (hname name)
  | list items ih =>
    rw [nesting, tokens, itemNesting_eq_deepest, itemTokens_eq_flatMap]
    apply Nests.bracketed rfl
    exact Nests.flatMap ih
  | object entries ih =>
    rw [nesting, tokens, entryNesting_eq_deepest, entryTokens_eq_flatMap]
    apply Nests.bracketed rfl
    apply Nests.flatMap
    intro e he
    apply Nests.cons rfl
    apply Nests.cons rfl
    exact ih e he

theorem Argument.nests_group (as : List Argument) : Nests (groupNesting as) (groupTokens as) := by
  cases as with
  | nil => exact Nests.nil
  | cons a as =>
    apply Nests.bracketed rfl
    apply Nests.flatMap
    intro b _
    apply Nests.cons rfl
    apply Nests.cons rfl
    exact b.value.nests

theorem Directive.nests_list (ds : List Directive) :
    Nests (listNesting ds) (ds.flatMap tokens) := by
  apply Nests.flatMap
  intro d _
  apply Nests.cons rfl
  apply Nests.cons rfl
  exact Argument.nests_group d.arguments

theorem Field.nests (f : Field) : Nests f.nesting f.tokens := by
  have hbehind : Nests f.nesting (.name f.name ::
      (Argument.groupTokens f.arguments ++ f.directives.flatMap Directive.tokens)) := by
    apply Nests.cons rfl
    exact (Argument.nests_group f.arguments).append (Directive.nests_list f.directives)
  unfold tokens aliasTokens
  cases f.aliasName with
  | none => exact hbehind
  | some a =>
    apply Nests.cons rfl
    apply Nests.cons rfl
    exact hbehind

theorem TypeRef.nests (t : TypeRef) : Nests t.nesting t.tokens := by
  have hbang (nullable : Bool) : Nests 0 (bangTokens nullable) := by
    cases nullable with
    | false => exact Nests.cons rfl Nests.nil
    | true => exact Nests.nil
  induction t with
  | named name nullable => exact Nests.cons rfl (hbang nullable)
  | list inner nullable ih =>
    have hinner : Nests (inner.nesting + 1) (.bracketL :: (inner.tokens ++ [.bracketR])) :=
      Nests.bracketed rfl ih
    have h := hinner.append (hbang nullable)
    simpa only [nesting, tokens, Nat.max_zero, List.cons_append, List.append_assoc,
      List.nil_append] using h

theorem VariableDefinition.nests (d : VariableDefinition) : Nests d.nesting d.tokens := by
  have hdefault : Nests (d.default.elim 0 Value.nesting) d.defaultTokens := by
    unfold defaultTokens
    cases d.default with
    | none => exact Nests.nil
    | some v => exact Nests.cons rfl v.nests
  apply Nests.cons rfl
  apply Nests.cons rfl
  apply Nests.cons rfl
  exact d.type.nests.append hdefault

theorem VariableDefinition.nests_group (ds : List VariableDefinition) :
    Nests (groupNesting ds) (groupTokens ds) := by
  cases ds with
  | nil => exact Nests.nil
  | cons d ds =>
    apply Nests.bracketed rfl
    apply Nests.flatMap
    intro e _
    exact e.nests

theorem Selection.nests (s : Selection) : Nests s.nesting s.tokens := by
  induction s using Selection.inductOn with
  | leaf f => exact f.nests
  | verbatim node => exact Nests.nil
  | branch f children ih =>
    cases children with
    | nil => exact f.nests
    | cons s ss =>
      rw [nesting, tokens, listNesting_eq_deepest, listTokens_eq_flatMap]
      apply f.nests.append
      apply Nests.bracketed rfl
      exact Nests.flatMap ih

theorem Operation.nests (op : Operation) : Nests op.nesting op.tokens := by
  have hset : Nests (Selection.listNesting op.selections + 1)
      (.braceL :: (Selection.listTokens op.selections ++ [.braceR])) := by
    rw [Selection.listNesting_eq_deepest, Selection.listTokens_eq_flatMap]
    apply Nests.bracketed rfl
    apply Nests.flatMap
    intro s _
    exact s.nests
  have hbehind := (VariableDefinition.nests_group op.definitions).append
    ((Directive.nests_list op.directives).append hset)
  apply Nests.cons rfl
  unfold nameTokens
  cases op.name with
  | none => exact hbehind
  | some name =>
    apply Nests.cons rfl
    exact hbehind

/-- The tokens of an operation fit a bound on brackets exactly if the operation nests no deeper. -/
theorem Operation.nestWithin_tokens (op : Operation) (budget : Nat) :
    Token.nestWithin budget op.tokens = decide (op.nesting ≤ budget) := by
  have h := op.nests budget []
  rwa [List.append_nil, Token.nestWithin, Bool.and_true] at h

end QueryCraft
