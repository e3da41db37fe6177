import QueryCraft.Edit.Coercion
import QueryCraft.Proofs.Document.Reading

/-!
Values that stand for texts or take the place of other values: their kinds, and that every text
stands for a value that is made of names and mentions no variable.
-/

namespace QueryCraft.Value

variable {new existing v : Value} {raw : String}

/-- A text is read by the kind of the literal that it replaces. -/
theorem ofTextLike_congr {other : Value} (h : existing.kind = other.kind) :
    ofTextLike raw existing = ofTextLike raw other := by
  simp only [ofTextLike, h]

/-- A conversion reads only the kind of the literal that is replaced. -/
theorem conform_congr {other : Value} (h : existing.kind = other.kind) :
    new.conform existing = new.conform other := by
  simp only [conform, ofTextLike_congr h, h]

/-- What a conversion gives back: the value itself, or the kind of the literal that is replaced. -/
theorem conform_cases (h : new.conform existing = .ok v) :
    v = new ∨ v.kind = existing.kind ∧ ofTextLike new.rawText existing = .ok v := by
  unfold conform at h
  split at h
  · exact .inl (Except.ok.inj h).symm
  · split at h
    · contradiction
    · next w htext =>
      by_cases hkind : w.kind = existing.kind
      · simp only [ifOfKind, Option.filter, hkind, beq_self_eq_true, if_true, orExpected] at h
        obtain rfl := Except.ok.inj h
        exact .inr ⟨hkind, htext⟩
      · simp [ifOfKind, Option.filter, hkind, orExpected] at h

/-- A converted value is not converted again. -/
theorem conform_conform (h : new.conform existing = .ok v) : new.conform v = .ok v := by
  rcases conform_cases h with rfl | ⟨hkind, -⟩
  · simp [conform]
  · rwa [conform_congr hkind]

theorem kind_ne_var_of_conform (h : new.conform existing = .ok v) (hnew : new.kind ≠ .var)
    (hexisting : existing.kind ≠ .var) : v.kind ≠ .var := by
  rcases conform_cases h with rfl | ⟨hkind, -⟩
  · exact hnew
  · rwa [hkind]

theorem kind_eq_var_iff : v.kind = .var ↔ ∃ x, v = .var x := by
  cases v <;> simp [kind]

theorem kind_eq_null_iff : v.kind = .null ↔ v = .null := by
  cases v <;> simp [kind]

/-- What the parser reads where the argument of a field stands is made of names. -/
theorem formed_of_literal? {raw : List Char} (h : literal? raw = some v) : v.Formed true := by
  unfold literal? at h
  split at h
  · next aliasName name a directives es hparse =>
    split at h
    · next hconstant =>
      obtain rfl := Option.some.inj h
      have hformed := Executable.formed_of_ofText? hparse _ (List.mem_singleton.mpr rfl) _ rfl
      have ha : a ∈ Operation.allArguments ⟨none, [], [], Selection.ofExecutables
          [.field ⟨aliasName, name, [a], directives⟩ es]⟩ := by
        rw [Operation.allArguments, Selection.ofExecutables, Selection.listArguments]
        refine List.mem_append_right _ (List.mem_append_left _ ?_)
        exact Selection.mem_allArguments_ofExecutable (List.mem_append_left _ (by simp))
      have hprintable := Operation.isPrintable_of_mem hformed.printable ha
      simp only [Argument.isPrintable, Bool.and_eq_true] at hprintable
      refine ⟨hprintable.2, hformed.keyed _ ?_, fun _ => hconstant⟩
      exact List.mem_append_left _ (List.mem_map_of_mem ha)
    · contradiction
  · contradiction

theorem exists_of_boolean? {raw : List Char} (h : boolean? raw = some v) :
    ∃ b, v = .boolean b := by
  unfold boolean? at h
  split at h
  · exact ⟨true, (Option.some.inj h).symm⟩
  · split at h
    · exact ⟨false, (Option.some.inj h).symm⟩
    · contradiction

theorem exists_of_int? {raw : List Char} (h : int? raw = some v) : ∃ n, v = .int n := by
  obtain ⟨n, -, rfl⟩ := Option.map_eq_some_iff.mp h
  exact ⟨n, rfl⟩

theorem exists_of_float? {raw : List Char} (h : float? raw = some v) : ∃ x, v = .float x := by
  unfold float? at h
  split at h
  · next x _ =>
    split at h
    · exact ⟨x, (Option.some.inj h).symm⟩
    · contradiction
  · contradiction

theorem enum?_eq_some_iff {raw : List Char} :
    enum? raw = some v ↔
      Text.isEnumName (String.ofList raw) = true ∧ v = .enum (String.ofList raw) := by
  simp only [enum?]
  split
  · next hname => simp [hname, eq_comm]
  · next hname => simp [hname]

theorem formed_of_boolean? {raw : List Char} (h : boolean? raw = some v) : v.Formed true := by
  obtain ⟨b, rfl⟩ := exists_of_boolean? h
  exact ⟨rfl, rfl, fun _ => rfl⟩

theorem formed_of_int? {raw : List Char} (h : int? raw = some v) : v.Formed true := by
  obtain ⟨n, rfl⟩ := exists_of_int? h
  exact ⟨rfl, rfl, fun _ => rfl⟩

theorem formed_of_float? {raw : List Char} (h : float? raw = some v) : v.Formed true := by
  obtain ⟨x, rfl⟩ := exists_of_float? h
  exact ⟨rfl, rfl, fun _ => rfl⟩

theorem formed_of_enum? {raw : List Char} (h : enum? raw = some v) : v.Formed true := by
  obtain ⟨hname, rfl⟩ := enum?_eq_some_iff.mp h
  exact ⟨hname, rfl, fun _ => rfl⟩

theorem orExpected_eq_ok_iff {expected : Expectation} {v? : Option Value} :
    orExpected expected v? = .ok v ↔ v? = some v := by
  cases v? <;> simp [orExpected]

theorem orExpected_ok {expected : Expectation} {v? : Option Value}
    (h : orExpected expected v? = .ok v) : v? = some v :=
  orExpected_eq_ok_iff.mp h

theorem ifOfKind_some {kind : Kind} {v? : Option Value} (h : ifOfKind kind v? = some v) :
    v? = some v :=
  (Option.filter_eq_some_iff.mp h).1

theorem kind_of_ifOfKind {kind : Kind} {v? : Option Value} (h : ifOfKind kind v? = some v) :
    v.kind = kind := by
  simpa using (Option.filter_eq_some_iff.mp h).2

theorem formed_of_ofCustomText {type : String} (h : ofCustomText raw type = .ok v) :
    v.Formed true := by
  simp only [ofCustomText] at h
  split at h
  · exact formed_of_literal? (ifOfKind_some (orExpected_ok h))
  · obtain rfl := Except.ok.inj h
    cases henum : enum? (Text.trim raw.toList) with
    | none => exact ⟨rfl, rfl, fun _ => rfl⟩
    | some w => exact formed_of_enum? henum

theorem formed_of_ofNamedText {type : String} (h : ofNamedText raw type = .ok v) :
    v.Formed true := by
  simp only [ofNamedText] at h
  split at h
  · obtain rfl := Except.ok.inj h
    exact ⟨rfl, rfl, fun _ => rfl⟩
  · split at h
    · exact formed_of_int? (orExpected_ok h)
    · split at h
      · exact formed_of_float? (orExpected_ok h)
      · split at h
        · exact formed_of_boolean? (orExpected_ok h)
        · exact formed_of_ofCustomText h

/-- Whatever type is declared, a text stands for a value that is made of names, without variables.
-/
theorem formed_of_ofText {type : TypeRef} (h : ofText raw type = .ok v) : v.Formed true := by
  induction type generalizing v with
  | named name nullable =>
    simp only [ofText] at h
    split at h
    · split at h
      · obtain rfl := Except.ok.inj h
        exact ⟨rfl, rfl, fun _ => rfl⟩
      · contradiction
    · exact formed_of_ofNamedText h
  | list inner nullable ih =>
    simp only [ofText] at h
    split at h
    · split at h
      · obtain rfl := Except.ok.inj h
        exact ⟨rfl, rfl, fun _ => rfl⟩
      · contradiction
    · split at h
      · exact formed_of_literal? (ifOfKind_some (orExpected_ok h))
      · cases hitem : ofText raw inner with
        | error e =>
          rw [hitem] at h
          contradiction
        | ok item =>
          rw [hitem] at h
          obtain rfl := Except.ok.inj h
          exact .list fun w hw => List.mem_singleton.mp hw ▸ ih hitem

/-- Whatever it replaces, a text stands for a value that is made of names, without variables. -/
theorem formed_of_ofTextLike (h : ofTextLike raw existing = .ok v) : v.Formed true := by
  simp only [ofTextLike] at h
  have hvalue := orExpected_ok h
  split at hvalue
  · exact formed_of_boolean? hvalue
  · exact formed_of_float? hvalue
  · exact formed_of_int? hvalue
  · obtain rfl := Option.some.inj hvalue
    exact ⟨rfl, rfl, fun _ => rfl⟩
  · rcases Option.or_eq_some_iff.mp hvalue with henum | ⟨-, hliteral⟩
    · exact formed_of_enum? henum
    · exact formed_of_literal? hliteral
  · exact formed_of_literal? hvalue
  · exact formed_of_literal? hvalue
  · exact formed_of_literal? hvalue
  · exact formed_of_literal? hvalue

theorem isConstant_of_conform (hnew : new.isConstant = true)
    (h : new.conform existing = .ok v) : v.isConstant = true := by
  rcases conform_cases h with rfl | ⟨-, htext⟩
  · exact hnew
  · exact (formed_of_ofTextLike htext).isConstant rfl

theorem isPrintable_of_conform (hnew : new.isPrintable = true)
    (h : new.conform existing = .ok v) : v.isPrintable = true := by
  rcases conform_cases h with rfl | ⟨-, htext⟩
  · exact hnew
  · exact (formed_of_ofTextLike htext).printable

end QueryCraft.Value
