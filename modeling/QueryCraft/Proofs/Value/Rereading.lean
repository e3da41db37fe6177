import QueryCraft.Proofs.Number.FloatText
import QueryCraft.Proofs.Value.Sorting

/-!
What the text of a value is read as. All values come back as they are, apart from two kinds of
scalars: the text of a double need not be read as this double, or at all, and in a string U+0008 is
read as another character.
-/

namespace QueryCraft.Value

/-- The value that the text of a double is read as, if it is a single token. -/
def rereadFloat? (x : Float) : Option Value :=
  match Lexeme.tokens? (Number.FloatStyle.value.write x) with
  | some [.int n] => some (.int n)
  | some [.float y] => some (.float y)
  | some [.name s] => some (ofName s)
  | _ => none

/-- The value that the text of a scalar is read as; null stands for what cannot be read. -/
def rereadScalar : Value → Value
  | .float x => (rereadFloat? x).getD .null
  | .string text => .string (String.ofList (text.toList.map Text.Quoted.reread))
  | v => v

mutual

/-- The value that the text of a value is read as, with the entries of objects in their order. -/
def reread : Value → Value
  | .list items => .list (rereadItems items)
  | .object entries => .object (rereadEntries entries)
  | v => v.rereadScalar

def rereadItems : List Value → List Value
  | [] => []
  | v :: vs => reread v :: rereadItems vs

def rereadEntries : List (String × Value) → List (String × Value)
  | [] => []
  | (k, v) :: es => (k, reread v) :: rereadEntries es

end

/-- Whether the text of a scalar can be read. -/
def isLegible : Value → Bool
  | .float x => (rereadFloat? x).isSome
  | _ => true

/-- Whether the text of a scalar is read as the scalar itself. -/
def readsBack : Value → Bool
  | .float x => (rereadFloat? x).any (same · (.float x))
  | .string text => !text.toList.contains '\x08'
  | _ => true

theorem reread_float (x : Float) : reread (.float x) = (rereadFloat? x).getD .null := rfl

theorem reread_string (text : String) :
    reread (.string text) = .string (String.ofList (text.toList.map Text.Quoted.reread)) := rfl

theorem reread_list (items : List Value) : reread (.list items) = .list (items.map reread) := by
  have hitems : rereadItems items = items.map reread := by
    induction items with
    | nil => rfl
    | cons v vs ih => simp [rereadItems, ih]
  rw [reread, hitems]

theorem reread_object (entries : List (String × Value)) :
    reread (.object entries) = .object (entries.map fun e => (e.1, reread e.2)) := by
  have hentries : rereadEntries entries = entries.map fun e => (e.1, reread e.2) := by
    induction entries with
    | nil => rfl
    | cons e es ih => simp [rereadEntries, ih]
  rw [reread, hentries]

/-- A double that is no finite number is read as an enum value, and every other one as a number. -/
theorem rereadFloat?_cases {x : Float} {v : Value} (h : rereadFloat? x = some v) :
    v = .enum "NaN" ∨ v = .enum "inf" ∨ (∃ n, v = .int n) ∨ ∃ y, v = .float y := by
  have hname {s : String} (hs : Text.isName s = true)
      (hx : Number.FloatStyle.value.write x = s.toList) : v = ofName s := by
    rw [rereadFloat?, hx, Lexeme.tokens?_name_alone hs] at h
    exact (Option.some.inj h).symm
  rcases Number.FloatStyle.value.write_cases x with hx | hx | hx
  · exact .inl (hname (by decide) hx)
  · exact .inr (.inl (hname (by decide) hx))
  · rw [rereadFloat?, Lexeme.tokens?_numeral_alone hx] at h
    cases htoken : Lexeme.numberToken? (Number.FloatStyle.value.write x) with
    | none =>
      rw [htoken] at h
      contradiction
    | some t =>
      rw [htoken] at h
      rcases Lexeme.numberToken?_cases htoken with ⟨n, rfl⟩ | ⟨y, rfl⟩
      · exact .inr (.inr (.inl ⟨n, (Option.some.inj h).symm⟩))
      · exact .inr (.inr (.inr ⟨y, (Option.some.inj h).symm⟩))

section Reread

variable {v : Value}

theorem readsBack_of_exact (h : v.everywhere isExact = true) : v.everywhere readsBack = true := by
  refine everywhere_mono (fun v hv => ?_) h
  cases v with
  | float x => contradiction
  | string text => exact hv
  | _ => rfl

theorem isLegible_of_readsBack (h : v.everywhere readsBack = true) :
    v.everywhere isLegible = true := by
  refine everywhere_mono (fun v hv => ?_) h
  cases v with
  | float x => exact Option.isSome_of_any hv
  | _ => rfl

/-- What a printable value is read as is printable. -/
theorem isPrintable_reread (h : v.isPrintable = true) : v.reread.isPrintable = true := by
  induction v using inductOn with
  | float x =>
    rw [reread_float]
    cases hx : rereadFloat? x with
    | none => rfl
    | some w =>
      rcases rereadFloat?_cases hx with rfl | rfl | ⟨n, rfl⟩ | ⟨y, rfl⟩
      · decide
      · decide
      · rfl
      · rfl
  | list items ih =>
    obtain ⟨-, hitems⟩ := everywhere_list.mp h
    rw [reread_list]
    exact everywhere_list.mpr ⟨rfl, List.forall_mem_map.mpr fun v hv => ih v hv (hitems v hv)⟩
  | object entries ih =>
    obtain ⟨hnamed, hentries⟩ := everywhere_object.mp h
    rw [reread_object]
    refine everywhere_object.mpr ⟨?_, List.forall_mem_map.mpr fun e he => ?_⟩
    · simpa [isNamed] using hnamed
    · exact ih e he (hentries e he)
  | _ => exact h

/-- No variable is read out of a text that was written without one. -/
theorem isConstant_reread (h : v.isConstant = true) : v.reread.isConstant = true := by
  induction v using inductOn with
  | float x =>
    rw [reread_float]
    cases hx : rereadFloat? x with
    | none => rfl
    | some w => rcases rereadFloat?_cases hx with rfl | rfl | ⟨n, rfl⟩ | ⟨y, rfl⟩ <;> rfl
  | list items ih =>
    rw [isConstant_list] at h
    rw [reread_list, isConstant_list, List.forall_mem_map]
    exact fun v hv => ih v hv (h v hv)
  | object entries ih =>
    rw [isConstant_object] at h
    rw [reread_object, isConstant_object, List.forall_mem_map]
    exact fun e he => ih e he (h e he)
  | _ => exact h

/-- A value whose objects are maps is read as the same value exactly if its scalars are. -/
theorem same_sorted_reread_iff (hkeys : v.everywhere isKeyed = true) :
    same v.reread.sorted v = true ↔ v.everywhere readsBack = true := by
  induction v using inductOn with
  | null => simp [reread, rereadScalar, sorted, same, everywhere, readsBack]
  | boolean _ | int _ | enum _ | var _ =>
    simp [reread, rereadScalar, sorted, same, everywhere, readsBack]
  | string text =>
    have hback : String.ofList (text.toList.map Text.Quoted.reread) = text ↔
        '\x08' ∉ text.toList := by
      rw [← Text.Quoted.map_reread_eq_self_iff, ← String.toList_inj, String.toList_ofList]
    simp [reread_string, sorted, same, everywhere, readsBack, hback]
  | float x =>
    rw [reread_float, everywhere, readsBack]
    · cases hx : rereadFloat? x with
      | none => simp [sorted, same]
      | some w =>
        rcases rereadFloat?_cases hx with rfl | rfl | ⟨n, rfl⟩ | ⟨y, rfl⟩ <;> simp [sorted]
    all_goals simp
  | list items ih =>
    have hk := (everywhere_list.mp hkeys).2
    rw [reread_list, sorted, same, sortedItems_eq_map, List.map_map, sameItems_map_iff,
      everywhere_list]
    constructor
    · intro h
      exact ⟨rfl, fun v hv => (ih v hv (hk v hv)).mp (h v hv)⟩
    · intro h v hv
      exact (ih v hv (hk v hv)).mpr (h.2 v hv)
  | object entries ih =>
    obtain ⟨hnodup, hk⟩ := everywhere_object.mp hkeys
    simp only [isKeyed, decide_eq_true_eq] at hnodup
    rw [reread_object, sorted, sortedEntries_eq_map, List.map_map, sortedObject, same,
      everywhere_object]
    have hperm := foldl_insertEntry_perm
      (entries.map ((fun e => (e.1, sorted e.2)) ∘ fun e => (e.1, reread e.2))) [] (by
      simpa [List.map_map, Function.comp_def] using hnodup)
    simp only [Bool.and_eq_true, beq_iff_eq, sameEntries_iff]
    constructor
    · rintro ⟨-, h⟩
      refine ⟨rfl, fun e he => (ih e he (hk e he)).mp ?_⟩
      obtain ⟨w, hw, hsame⟩ := h (e.1, e.2.reread.sorted)
        (hperm.mem_iff.mpr (List.mem_map.mpr ⟨e, he, rfl⟩))
      rw [Keyed.lookup_of_mem hnodup he] at hw
      rwa [← Option.some.inj hw] at hsame
    · rintro ⟨-, h⟩
      refine ⟨by simpa using hperm.length_eq, fun e he => ?_⟩
      obtain ⟨f, hf, rfl⟩ := List.mem_map.mp (hperm.mem_iff.mp he)
      exact ⟨f.2, Keyed.lookup_of_mem hnodup hf, (ih f hf (hk f hf)).mpr (h f hf)⟩

end Reread

end QueryCraft.Value
