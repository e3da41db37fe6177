import QueryCraft.Proofs.Edit.Commuting
import QueryCraft.Proofs.Edit.Idempotence
import QueryCraft.Proofs.Edit.Literals
import QueryCraft.Proofs.Token.Strings

/-!
Giving an argument the same text twice. The text is read by what the argument holds, and the first
edit may have changed that: a null takes a literal of any kind, by which the text is read from then
on.
-/

namespace QueryCraft

namespace Value

variable {raw : String} {existing v w : Value}

/-- Whether a text that is read as the literal `v` stands for `v` again where `v` is what it
replaces. A string does not return, since the text is taken for its characters, and another scalar
does only if nothing else is in the text. -/
def ReturnsFrom (raw : String) (v : Value) : Prop :=
  match v with
  | .boolean _ => boolean? (Text.trim raw.toList) = some v
  | .int _ => int? (Text.trim raw.toList) = some v
  | .float _ => float? (Text.trim raw.toList) = some v
  | .string _ => False
  | .null | .enum _ | .var _ | .list _ | .object _ => True

/-- A bare name is the same enum value as a literal. -/
theorem eq_of_enum? {cs : List Char} (henum : enum? cs = some v) (hliteral : literal? cs = some w) :
    v = w := by
  obtain ⟨hname, rfl⟩ := enum?_eq_some_iff.mp henum
  have htokens : Lexeme.tokens? cs = some [.name (String.ofList cs)] := by
    have hparts := hname
    simp only [Text.isEnumName, Bool.and_eq_true] at hparts
    have halone := Lexeme.tokens?_name_alone hparts.1.1.1
    rwa [String.toList_ofList] at halone
  have hcomplete : IsLiteral cs (.enum (String.ofList cs)) :=
    isLiteral_of_tokens? hname rfl rfl (Nat.zero_le _) htokens
  obtain ⟨u, behind, hprintable, hsorted, -, hsplit, -⟩ := exists_of_literal? hliteral
  obtain ⟨rfl, -⟩ := hcomplete.eq_of_tokens? hprintable hsplit
  exact hsorted

/-- A text that is read as a string is longer than the string. -/
theorem length_lt_of_literal? {cs : List Char} {s : String} (h : literal? cs = some (.string s)) :
    s.toList.length < cs.length := by
  obtain ⟨w, behind, -, hsorted, -, htokens, -⟩ := exists_of_literal? h
  have hw : w = .string s := by
    cases w with
    | string text => exact hsorted
    | _ => simp [sorted, sortedObject] at hsorted
  subst hw
  exact Lexeme.length_lt_of_tokens? htokens

/-- A text is of the kind of the literal that it replaces, or a literal itself. -/
theorem ofTextLike_cases (h : ofTextLike raw existing = .ok v) :
    v.kind = existing.kind ∨ literal? (Text.trim raw.toList) = some v := by
  simp only [ofTextLike, orExpected_eq_ok_iff] at h
  split at h
  · next hkind =>
    obtain ⟨b, rfl⟩ := exists_of_boolean? h
    exact .inl hkind.symm
  · next hkind =>
    obtain ⟨x, rfl⟩ := exists_of_float? h
    exact .inl hkind.symm
  · next hkind =>
    obtain ⟨n, rfl⟩ := exists_of_int? h
    exact .inl hkind.symm
  · next hkind =>
    obtain rfl := Option.some.inj h
    exact .inl hkind.symm
  · next hkind =>
    rcases Option.or_eq_some_iff.mp h with henum | ⟨-, hliteral⟩
    · obtain ⟨-, rfl⟩ := enum?_eq_some_iff.mp henum
      exact .inl hkind.symm
    · exact .inr hliteral
  all_goals exact .inr h

theorem ofTextLike_null_eq_ok_iff :
    ofTextLike raw .null = .ok v ↔ literal? (Text.trim raw.toList) = some v :=
  orExpected_eq_ok_iff

/-- Where a text replaced a literal that says how to read it, the text is read the same way again. -/
theorem ofTextLike_of_conform (hexisting : existing.kind ≠ .null)
    (h : ofTextLike raw existing = .ok v) (hconform : v.conform existing = .ok w) :
    ofTextLike raw w = .ok v := by
  cases hfits : v.fits existing with
  | false => rwa [ofTextLike_congr (kind_of_conform hfits hconform)]
  | true =>
    obtain rfl : v = w := by
      rw [conform_of_fits hfits] at hconform
      exact Except.ok.inj hconform
    rcases ofTextLike_cases h with hkind | hliteral
    · rwa [ofTextLike_congr hkind]
    · -- The text is a literal of another kind, so it stays unconverted only if it is a null.
      simp only [fits, Bool.or_eq_true, beq_iff_eq] at hfits
      rcases hfits with (hkind | hnull) | hnull
      · rwa [ofTextLike_congr hkind]
      · exact absurd hnull hexisting
      · obtain rfl := kind_eq_null_iff.mp hnull
        exact ofTextLike_null_eq_ok_iff.mpr hliteral

/-- Which literals a text stands for once they are what it replaces. -/
theorem ofTextLike_self_iff (hliteral : literal? (Text.trim raw.toList) = some v) :
    ofTextLike raw v = .ok v ↔ v.ReturnsFrom raw := by
  rw [ofTextLike, orExpected_eq_ok_iff]
  cases v with
  | boolean b => rfl
  | int n => rfl
  | float x => rfl
  | string s =>
    have hshorter := length_lt_of_literal? hliteral
    have htrim := Text.length_trim_le raw.toList
    simp only [kind, Option.some.injEq, string.injEq, ReturnsFrom, iff_false]
    rintro rfl
    omega
  | enum name =>
    refine iff_of_true ?_ trivial
    rw [kind, hliteral]
    cases henum : enum? (Text.trim raw.toList) with
    | none => rfl
    | some u => rw [eq_of_enum? henum hliteral, Option.some_or]
  | null | var _ | list _ | object _ => exact iff_of_true hliteral trivial

/-- A text replaces the literal that it stands for by that literal or by nothing else. -/
theorem eq_of_ofTextLike_conform (hliteral : literal? (Text.trim raw.toList) = some v)
    (h : ofTextLike raw v = .ok w) (hconform : w.conform v = .ok v) : w = v := by
  have hkind : w.kind = v.kind := by
    rcases ofTextLike_cases h with hkind | hagain
    · exact hkind
    · rw [Option.some.inj (hagain.symm.trans hliteral)]
  rw [conform, if_pos (.inl hkind)] at hconform
  exact Except.ok.inj hconform

end Value

namespace Document

variable {name raw : String} {current v w : Value} {d e : Document}

/-- What the first argument of a name holds once the arguments of that name are given a value. -/
theorem argument?_of_assign (h : d.assign name v = .ok e)
    (hcurrent : d.operation.argument? name = some current) :
    ∃ new, e.operation.argument? name = some new ∧
      (current.kind = .var → new = current) ∧
      (current.kind ≠ .var → v.conform current = .ok new) := by
  rw [Operation.argument?_eq] at hcurrent
  obtain ⟨a, hfind, rfl⟩ := Option.map_eq_some_iff.mp hcurrent
  have hname : a.name = name := by simpa using List.find?_some hfind
  have hassign := (assign_ok_iff.mp h).1 a (List.mem_of_find?_eq_some hfind)
  obtain ⟨-, rfl⟩ := assign_ok_iff_assigned.mp h
  refine ⟨_, by rw [argument?_assigned_eq, hfind, Option.map_some], fun hvar => ?_, fun hkind => ?_⟩
  · rw [Folder.result, Argument.assign, if_neg fun hcond => hcond.2 hvar]
  · exact Argument.conform_of_assign hassign hname hkind

theorem argumentValue_of_literal (hkind : current.kind ≠ .var) :
    d.argumentValue raw current = Value.ofTextLike raw current := by
  cases current with
  | var x => exact absurd rfl hkind
  | _ => rfl

theorem textValue_of_literal (hfirst : d.operation.argument? name = some current)
    (hkind : current.kind ≠ .var) : d.textValue name raw = Value.ofTextLike raw current := by
  simp only [textValue, hfirst]
  exact argumentValue_of_literal hkind

theorem kind_ne_var_of_textValue (h : d.textValue name raw = .ok v) : v.kind ≠ .var := by
  unfold textValue at h
  split at h
  · obtain rfl := Except.ok.inj h
    exact nofun
  · exact kind_ne_var_of_argumentValue h

/-- The second reading of a text gives what the first one gave, unless the argument was null. -/
theorem textValue_of_assign (htext : d.textValue name raw = .ok v) (h : d.assign name v = .ok e)
    (hnull : d.operation.argument? name ≠ some .null) : e.textValue name raw = .ok v := by
  cases hcurrent : d.operation.argument? name with
  | none =>
    obtain ⟨-, rfl⟩ := assign_ok_iff_assigned.mp h
    have hfind : d.operation.allArguments.find? (·.name == name) = none := by
      rw [← Option.map_eq_none_iff, ← Operation.argument?_eq, hcurrent]
    rw [textValue, hcurrent] at htext
    rw [textValue, argument?_assigned_eq, hfind]
    exact htext
  | some current =>
    obtain ⟨new, hnew, hvar, hliteral⟩ := argument?_of_assign h hcurrent
    simp only [textValue, hcurrent] at htext
    simp only [textValue, hnew]
    by_cases hkind : current.kind = .var
    · obtain ⟨-, rfl⟩ := assign_ok_iff_assigned.mp h
      rw [hvar hkind, argumentValue_assigned, htext]
    · have hconform := hliteral hkind
      have hexisting : current.kind ≠ .null := by
        intro hzero
        obtain rfl := Value.kind_eq_null_iff.mp hzero
        exact hnull hcurrent
      have hnew_kind : new.kind ≠ .var :=
        Value.kind_ne_var_of_conform hconform (kind_ne_var_of_argumentValue htext) hkind
      rw [argumentValue_of_literal hkind] at htext
      rw [argumentValue_of_literal hnew_kind, Value.ofTextLike_of_conform hexisting htext hconform]

/-- A null takes any literal as it is. -/
theorem argument?_of_assign_null (h : d.assign name v = .ok e)
    (hnull : d.operation.argument? name = some .null) : e.operation.argument? name = some v := by
  obtain ⟨new, hnew, -, hconform⟩ := argument?_of_assign h hnull
  have hfits : v.fits .null = true := by simp [Value.fits, Value.kind]
  rw [hnew, Except.ok.inj ((Value.conform_of_fits hfits).symm.trans (hconform (by decide)))]

/-- A text edit of a literal leaves the literal alone exactly if the text stands for it. -/
theorem setArgumentText_literal_iff (hassign : d.assign name v = .ok d) (hv : v.kind ≠ .var)
    (hfirst : d.operation.argument? name = some v)
    (hliteral : Value.literal? (Text.trim raw.toList) = some v) :
    d.setArgumentText name raw = .ok d ↔ v.ReturnsFrom raw := by
  rw [setArgumentText_ok_iff, textValue_of_literal hfirst hv, ← Value.ofTextLike_self_iff hliteral]
  constructor
  · rintro ⟨w, hw, hassign_w⟩
    obtain ⟨new, hkept, -, hconform⟩ := argument?_of_assign hassign_w hfirst
    obtain rfl : v = new := Option.some.inj (hfirst.symm.trans hkept)
    obtain rfl := Value.eq_of_ofTextLike_conform hliteral hw (hconform hv)
    exact hw
  · intro hself
    exact ⟨v, hself, hassign⟩

/-- Giving the arguments of one name the same text again changes nothing, unless the first of them
was null: then it changes nothing exactly if the text stands for the literal that it put there. -/
theorem setArgumentText_again_iff (h : d.setArgumentText name raw = .ok e) :
    e.setArgumentText name raw = .ok e ↔
      (d.operation.argument? name = some .null →
        ∀ v, Value.literal? (Text.trim raw.toList) = some v → v.ReturnsFrom raw) := by
  obtain ⟨v, htext, hassign⟩ := setArgumentText_ok_iff.mp h
  have hv : v.kind ≠ .var := kind_ne_var_of_textValue htext
  have hagain : e.assign name v = .ok e := assign_assign hv hassign
  by_cases hnull : d.operation.argument? name = some .null
  · have hliteral : Value.literal? (Text.trim raw.toList) = some v := by
      simp only [textValue, hnull] at htext
      exact Value.ofTextLike_null_eq_ok_iff.mp htext
    rw [setArgumentText_literal_iff hagain hv (argument?_of_assign_null hassign hnull) hliteral]
    constructor
    · rintro hreturns - u hu
      obtain rfl : v = u := Option.some.inj (hliteral.symm.trans hu)
      exact hreturns
    · intro hreturns
      exact hreturns hnull v hliteral
  · have htext_again := textValue_of_assign htext hassign hnull
    have hedit := setArgumentText_ok_iff.mpr ⟨v, htext_again, hagain⟩
    exact iff_of_true hedit fun h => absurd h hnull

/-- Pets in a state that is given as a literal. -/
private def pets (state : Value) : Document where
  operation :=
    { name := none
      definitions := []
      directives := []
      selections :=
        [.branch ⟨none, "pets", [⟨"state", state⟩], []⟩ [.leaf ⟨none, "name", [], []⟩]] }
  auxiliary := []

private theorem textValue_pets (raw : String) :
    (pets .null).textValue "state" raw = Value.ofTextLike raw .null :=
  textValue_of_literal (by with_unfolding_all rfl) nofun

theorem setArgumentText_again_iff_pets :
    (pets .null).setArgumentText "state" "SOLD" = .ok (pets (.enum "SOLD")) ∧
    (pets (.enum "SOLD")).setArgumentText "state" "SOLD" = .ok (pets (.enum "SOLD")) := by
  have hliteral : Value.literal? "SOLD".toList = some (.enum "SOLD") :=
    Value.literal?_chars (v := .enum "SOLD") (by decide) (by decide) (by decide) rfl
  have hfirst : (pets .null).setArgumentText "state" "SOLD" = .ok (pets (.enum "SOLD")) :=
    setArgumentText_ok_iff.mpr ⟨.enum "SOLD",
      (textValue_pets "SOLD").trans (Value.ofTextLike_null_eq_ok_iff.mpr hliteral), by rfl⟩
  refine ⟨hfirst, (setArgumentText_again_iff hfirst).mpr fun _ v hv => ?_⟩
  obtain rfl : Value.enum "SOLD" = v := Option.some.inj (hliteral.symm.trans hv)
  trivial

/-- A string literal in the place of a null is taken for its characters when it is given again. -/
theorem setArgumentText_again_differs :
    (pets .null).setArgumentText "state" "\"sold\"" = .ok (pets (.string "sold")) ∧
    (pets (.string "sold")).setArgumentText "state" "\"sold\"" =
      .ok (pets (.string "\"sold\"")) ∧
    (pets (.string "sold")).setArgumentText "state" "\"sold\"" ≠ .ok (pets (.string "sold")) := by
  have hliteral : Value.literal? "\"sold\"".toList = some (.string "sold") :=
    Value.literal?_chars (v := .string "sold") (by decide) (by decide) (by decide) rfl
  have hagain : (pets (.string "sold")).setArgumentText "state" "\"sold\"" =
      .ok (pets (.string "\"sold\"")) := by with_unfolding_all rfl
  refine ⟨?_, hagain, ?_⟩
  · exact setArgumentText_ok_iff.mpr
      ⟨.string "sold", (textValue_pets _).trans (Value.ofTextLike_null_eq_ok_iff.mpr hliteral),
        by rfl⟩
  · rw [hagain]
    intro h
    have hvalues : [Value.string "\"sold\""] = [.string "sold"] :=
      congrArg (fun d => d.operation.allArguments.map Argument.value) (Except.ok.inj h)
    simp at hvalues

end Document

end QueryCraft
