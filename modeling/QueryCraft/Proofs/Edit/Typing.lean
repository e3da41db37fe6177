import QueryCraft.Proofs.Edit.Coercion
import QueryCraft.Proofs.Edit.Literals
import QueryCraft.Proofs.Outcome

/-!
Which of the values that texts stand for have the type by which the text was read. Scalars and
single items do; a list literal is taken as it is, whatever its items are.
-/

namespace QueryCraft.Value

/-- Whether a value of the kind, other than null, can have the named type. -/
def Kind.suits (type : String) (kind : Kind) : Bool :=
  if type = "Int" then kind == .int
  else if type = "Float" then kind == .float || kind == .int
  else if type = "Boolean" then kind == .boolean
  else if type = "String" then kind == .string
  else if type = "ID" then kind == .string || kind == .int
  else kind != .list

/-- Whether the value has the type. A null has every nullable type, and a list needs items that have
the inner type. -/
def hasType : TypeRef → Value → Bool
  | .named name nullable, v => if v.kind = .null then nullable else v.kind.suits name
  | .list _ nullable, .null => nullable
  | .list inner _, .list items => items.all (hasType inner)
  | .list _ _, _ => false

variable {raw : String} {type : TypeRef} {v : Value}

theorem kind_of_ofCustomText {name : String} (h : ofCustomText raw name = .ok v) :
    v.kind = .object ∨ v.kind = .enum ∨ v.kind = .string := by
  simp only [ofCustomText] at h
  split at h
  · exact .inl (kind_of_ifOfKind (orExpected_ok h))
  · obtain rfl := Except.ok.inj h
    cases henum : enum? (Text.trim raw.toList) with
    | none => exact .inr (.inr rfl)
    | some w =>
      obtain ⟨-, rfl⟩ := enum?_eq_some_iff.mp henum
      exact .inr (.inl rfl)

/-- A text that is read by a named type is no null, and its kind is one for the type. -/
theorem suits_of_ofNamedText {name : String} (h : ofNamedText raw name = .ok v) :
    v.kind ≠ .null ∧ v.kind.suits name = true := by
  simp only [ofNamedText] at h
  split at h
  · next hname =>
    obtain rfl := Except.ok.inj h
    refine ⟨by simp [kind], ?_⟩
    rcases hname with rfl | rfl <;> rfl
  · next hstring =>
    rw [not_or] at hstring
    split at h
    · next hint =>
      obtain ⟨n, rfl⟩ := exists_of_int? (orExpected_ok h)
      exact ⟨by simp [kind], by simp [Kind.suits, hint, kind]⟩
    · next hint =>
      split at h
      · next hfloat =>
        obtain ⟨x, rfl⟩ := exists_of_float? (orExpected_ok h)
        exact ⟨by simp [kind], by simp [Kind.suits, hfloat, kind]⟩
      · next hfloat =>
        split at h
        · next hboolean =>
          obtain ⟨b, rfl⟩ := exists_of_boolean? (orExpected_ok h)
          exact ⟨by simp [kind], by simp [Kind.suits, hboolean, kind]⟩
        · next hboolean =>
          have hsuits : v.kind.suits name = (v.kind != .list) := by
            simp only [Kind.suits, hint, hfloat, hboolean, hstring, if_false]
          rw [hsuits]
          rcases kind_of_ofCustomText h with hkind | hkind | hkind <;> simp [hkind]

theorem hasType_of_named {name : String} {nullable : Bool}
    (h : ofText raw (.named name nullable) = .ok v) : v.hasType (.named name nullable) = true := by
  simp only [ofText] at h
  split at h
  · split at h
    · next hnullable =>
      obtain rfl := Except.ok.inj h
      exact hnullable
    · contradiction
  · obtain ⟨hnull, hsuits⟩ := suits_of_ofNamedText h
    rw [hasType, if_neg hnull, hsuits]

/-- A text that is no list literal stands for a value of the type it is read by, however deep the
lists are that it is put into. -/
theorem hasType_of_plain (hplain : (Text.trim raw.toList).head? ≠ some '[')
    (h : ofText raw type = .ok v) : v.hasType type = true := by
  induction type generalizing v with
  | named name nullable => exact hasType_of_named h
  | list inner nullable ih =>
    rw [ofText, if_neg hplain] at h
    split at h
    · split at h
      · next hnullable =>
        obtain rfl := Except.ok.inj h
        exact hnullable
      · contradiction
    · obtain ⟨item, hitem, hlist⟩ := bind_eq_ok.mp h
      obtain rfl := Except.ok.inj hlist
      rw [hasType, List.all_cons, ih hitem]
      rfl

/-- A list literal is not looked into. -/
theorem literal?_of_bracket {inner : TypeRef} {nullable : Bool}
    (hbracket : (Text.trim raw.toList).head? = some '[')
    (h : ofText raw (.list inner nullable) = .ok v) :
    literal? (Text.trim raw.toList) = some v := by
  have hnull : Text.trim raw.toList ≠ "null".toList := by
    intro hnull
    rw [hnull] at hbracket
    contradiction
  rw [ofText, if_neg hnull, if_pos hbracket] at h
  exact ifOfKind_some (orExpected_ok h)

/-- What a text stands for by a type has no variables in it. It has the type, unless the text is a
list literal that is read by a list type: then it has the type exactly if the literal has. -/
theorem hasType_of_ofText_iff (h : ofText raw type = .ok v) :
    v.isConstant = true ∧
      (v.hasType type = true ↔
        (type.isList = true → (Text.trim raw.toList).head? = some '[' →
          ∀ u, literal? (Text.trim raw.toList) = some u → u.hasType type = true)) := by
  refine ⟨(formed_of_ofText h).isConstant rfl, ?_⟩
  by_cases hbracket : (Text.trim raw.toList).head? = some '['
  · cases type with
    | named name nullable =>
      exact iff_of_true (hasType_of_named h) fun hlist => absurd hlist nofun
    | list inner nullable =>
      have hliteral := literal?_of_bracket hbracket h
      constructor
      · rintro htype - - u hu
        obtain rfl := Option.some.inj (hliteral.symm.trans hu)
        exact htype
      · intro hall
        exact hall rfl hbracket v hliteral
  · exact iff_of_true (hasType_of_plain hbracket h) fun _ hhead => absurd hhead hbracket

/-- A list of numbers. -/
theorem hasType_of_ofText_iff_numbers :
    ofText "[1, 2]" (.list (.named "Int" false) true) = .ok (.list [.int 1, .int 2]) ∧
    isConstant (.list [.int 1, .int 2]) = true ∧
    hasType (.list (.named "Int" false) true) (.list [.int 1, .int 2]) = true := by
  have htrim : Text.trim "[1, 2]".toList = (list [.int 1, .int 2]).chars := by decide
  have hliteral : literal? (Text.trim "[1, 2]".toList) = some (.list [.int 1, .int 2]) := by
    rw [htrim]
    exact literal?_chars (by decide) (by decide) (by decide) rfl
  have htext : ofText "[1, 2]" (.list (.named "Int" false) true) =
      .ok (.list [.int 1, .int 2]) := by
    rw [ofText, if_neg (by decide), if_pos (by decide), hliteral]
    rfl
  obtain ⟨hconstant, htype⟩ := hasType_of_ofText_iff htext
  refine ⟨htext, hconstant, htype.mpr fun _ _ u hu => ?_⟩
  obtain rfl := Option.some.inj (hliteral.symm.trans hu)
  rfl

/-- A string and a null are accepted as items where numbers are expected. -/
theorem hasType_of_ofText_differs :
    ofText "[\"a\", null]" (.list (.named "Int" false) true) = .ok (.list [.string "a", .null]) ∧
    hasType (.list (.named "Int" false) true) (.list [.string "a", .null]) = false := by
  have htrim : Text.trim "[\"a\", null]".toList = (list [.string "a", .null]).chars := by decide
  have hliteral : literal? (Text.trim "[\"a\", null]".toList) =
      some (.list [.string "a", .null]) := by
    rw [htrim]
    exact literal?_chars (by decide) (by decide) (by decide) rfl
  refine ⟨?_, rfl⟩
  rw [ofText, if_neg (by decide), if_pos (by decide), hliteral]
  rfl

end QueryCraft.Value
