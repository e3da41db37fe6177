import QueryCraft.Value.Printer
import QueryCraft.Value.Search
import QueryCraft.Text.Search

/-!
Values as trees: induction over them, and conditions that hold of a value and of all values inside
it.
-/

namespace QueryCraft

namespace Value

/-- Induction in which the items of a list and the values of an object are members, not the tails of
mutual functions. -/
@[elab_as_elim]
theorem inductOn {motive : Value → Prop} (v : Value) (null : motive .null)
    (boolean : ∀ b, motive (.boolean b)) (int : ∀ n, motive (.int n))
    (float : ∀ x, motive (.float x)) (string : ∀ text, motive (.string text))
    (enum : ∀ name, motive (.enum name)) (var : ∀ name, motive (.var name))
    (list : ∀ items, (∀ v ∈ items, motive v) → motive (.list items))
    (object : ∀ entries, (∀ e ∈ entries, motive e.2) → motive (.object entries)) : motive v := by
  refine @Value.rec motive (fun items => ∀ v ∈ items, motive v)
    (fun entries => ∀ e ∈ entries, motive e.2) (fun e => motive e.2) null boolean int float string
    enum var list object ?_ ?_ ?_ ?_ (fun _ _ h => h) v
  · simp
  · intro v items hv hitems
    simpa using And.intro hv hitems
  · simp
  · intro e entries he hentries w hw
    rcases List.mem_cons.mp hw with rfl | hw
    · exact he
    · exact hentries w hw

mutual

/-- Whether `p` holds of a value and of every value inside it. -/
def everywhere (p : Value → Bool) : Value → Bool
  | .list items => p (.list items) && itemsEverywhere p items
  | .object entries => p (.object entries) && entriesEverywhere p entries
  | v => p v

def itemsEverywhere (p : Value → Bool) : List Value → Bool
  | [] => true
  | v :: vs => everywhere p v && itemsEverywhere p vs

def entriesEverywhere (p : Value → Bool) : List (String × Value) → Bool
  | [] => true
  | (_, v) :: es => everywhere p v && entriesEverywhere p es

end

variable {p q : Value → Bool}

theorem everywhere_list_eq_all (items : List Value) :
    everywhere p (.list items) = (p (.list items) && items.all (everywhere p)) := by
  have hitems : itemsEverywhere p items = items.all (everywhere p) := by
    induction items with
    | nil => rfl
    | cons v vs ih => simp [itemsEverywhere, ih]
  rw [everywhere, hitems]

theorem everywhere_object_eq_all (entries : List (String × Value)) :
    everywhere p (.object entries) =
      (p (.object entries) && entries.all fun e => everywhere p e.2) := by
  have hentries : entriesEverywhere p entries = entries.all (fun e => everywhere p e.2) := by
    induction entries with
    | nil => rfl
    | cons e es ih => simp [entriesEverywhere, ih]
  rw [everywhere, hentries]

theorem everywhere_list {items : List Value} :
    everywhere p (.list items) = true ↔
      p (.list items) = true ∧ ∀ v ∈ items, everywhere p v = true := by
  simp [everywhere_list_eq_all]

theorem everywhere_object {entries : List (String × Value)} :
    everywhere p (.object entries) = true ↔
      p (.object entries) = true ∧ ∀ e ∈ entries, everywhere p e.2 = true := by
  simp [everywhere_object_eq_all]

theorem everywhere_mono (h : ∀ v, p v = true → q v = true) {v : Value}
    (hv : everywhere p v = true) : everywhere q v = true := by
  induction v using inductOn with
  | list items ih =>
    obtain ⟨hself, hitems⟩ := everywhere_list.mp hv
    exact everywhere_list.mpr ⟨h _ hself, fun v hv => ih v hv (hitems v hv)⟩
  | object entries ih =>
    obtain ⟨hself, hentries⟩ := everywhere_object.mp hv
    exact everywhere_object.mpr ⟨h _ hself, fun e he => ih e he (hentries e he)⟩
  | _ => exact h _ hv

/-- Names inside a value are names, and those of enum values read as enum values. -/
def isNamed : Value → Bool
  | .enum name => Text.isEnumName name
  | .var name => Text.isName name
  | .object entries => entries.all fun e => Text.isName e.1
  | _ => true

/-- The keys of an object are distinct, as in a map. -/
def isKeyed : Value → Bool
  | .object entries => decide (entries.map Prod.fst).Nodup
  | _ => true

/-- Reading the text of a scalar loses nothing. It may for a float, and it does for U+0008, whose
escape reads as U+0010. -/
def isExact : Value → Bool
  | .float _ => false
  | .string text => !text.toList.contains '\x08'
  | _ => true

def isPrintable (v : Value) : Bool :=
  v.everywhere isNamed

theorem isConstant_list {items : List Value} :
    isConstant (.list items) = true ↔ ∀ v ∈ items, isConstant v = true := by
  have hitems : itemsConstant items = items.all isConstant := by
    induction items with
    | nil => rfl
    | cons v vs ih => simp [itemsConstant, ih]
  simp [isConstant, hitems]

theorem isConstant_object {entries : List (String × Value)} :
    isConstant (.object entries) = true ↔ ∀ e ∈ entries, isConstant e.2 = true := by
  have hentries : entriesConstant entries = entries.all (fun e => isConstant e.2) := by
    induction entries with
    | nil => rfl
    | cons e es ih => simp [entriesConstant, ih]
  simp [isConstant, hentries]

theorem mentions_list {x : String} {items : List Value} :
    mentions x (.list items) = true ↔ ∃ v ∈ items, mentions x v = true := by
  have hitems : itemsMention x items = items.any (mentions x) := by
    induction items with
    | nil => rfl
    | cons v vs ih => simp [itemsMention, ih]
  simp [mentions, hitems]

theorem mentions_object {x : String} {entries : List (String × Value)} :
    mentions x (.object entries) = true ↔ ∃ e ∈ entries, mentions x e.2 = true := by
  have hentries : entriesMention x entries = entries.any (fun e => mentions x e.2) := by
    induction entries with
    | nil => rfl
    | cons e es ih => simp [entriesMention, ih]
  simp [mentions, hentries]

theorem mentions_eq (x : String) (v : Value) :
    mentions x v = (isVar x v || v.parts.any (mentions x)) := by
  cases v with
  | list items =>
    rw [Bool.eq_iff_iff, mentions_list]
    simp [isVar, parts]
  | object entries =>
    rw [Bool.eq_iff_iff, mentions_object]
    simp [isVar, parts]
  | _ => simp [mentions, isVar, parts]

/-- The search through some values finds a variable if one of them mentions it. -/
theorem anyMentions_eq_any (x : String) (vs : List Value) :
    anyMentions x vs = vs.any (mentions x) := by
  induction vs using anyMentions.induct with
  | case1 => rw [anyMentions, List.any_nil]
  | case2 v rest ih =>
    rw [anyMentions, ih, List.any_append, List.any_cons, mentions_eq x v, Bool.or_assoc]

/-- A value without variables mentions none. -/
theorem mentions_eq_false_of_isConstant {x : String} {v : Value} (h : v.isConstant = true) :
    v.mentions x = false := by
  induction v using inductOn with
  | null | boolean _ | int _ | float _ | string _ | enum _ => rfl
  | var _ => simp [isConstant] at h
  | list items ih =>
    rw [← Bool.not_eq_true, mentions_list]
    rintro ⟨v, hv, hmentions⟩
    rw [ih v hv (isConstant_list.mp h v hv)] at hmentions
    contradiction
  | object entries ih =>
    rw [← Bool.not_eq_true, mentions_object]
    rintro ⟨e, he, hmentions⟩
    rw [ih e he (isConstant_object.mp h e he)] at hmentions
    contradiction

/-- The text of the items is their texts, separated by commas. -/
theorem itemChars_eq_join (items : List Value) :
    itemChars items = Text.join [',', ' '] (items.map chars) := by
  induction items with
  | nil => rfl
  | cons v vs ih =>
    cases vs with
    | nil => rfl
    | cons w ws => simp [itemChars, Text.join, ih]

/-- The text of an entry of an object. -/
def pairChars (e : String × Value) : List Char :=
  e.1.toList ++ ':' :: ' ' :: e.2.chars

theorem entryChars_eq_join (entries : List (String × Value)) :
    entryChars entries = Text.join [',', ' '] (entries.map pairChars) := by
  induction entries with
  | nil => rfl
  | cons e es ih =>
    cases es with
    | nil => rfl
    | cons f fs => simp [entryChars, Text.join, pairChars, ih]

end Value
end QueryCraft
