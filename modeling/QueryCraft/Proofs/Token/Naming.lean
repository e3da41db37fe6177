import QueryCraft.Proofs.Token.Scanning

/-!
Every name among the tokens of a text is a name: the lexer takes it from its first character to the
end of the run of name characters.
-/

namespace QueryCraft

/-- Whether a token that is a name holds one. -/
def Token.isNamed : Token → Bool
  | .name s => Text.isName s
  | _ => true

namespace Lexeme

/-- Of a choice whose first token has a property, the second one counts. -/
theorem of_ite {P : Token → Prop} {p : Prop} [Decidable p] {a t : Token} {rest : Option Token}
    (ha : P a) (hrest : rest = some t → P t) (h : (if p then some a else rest) = some t) : P t := by
  split at h
  · obtain rfl := Option.some.inj h
    exact ha
  · exact hrest h

theorem isNamed_of_punctuator? {c : Char} {t : Token} (h : Token.punctuator? c = some t) :
    t.isNamed = true := by
  unfold Token.punctuator? at h
  iterate 13 refine of_ite (P := fun t => t.isNamed = true) rfl (fun h => ?_) h
  contradiction

theorem isNamed_of_numberToken? {cs : List Char} {t : Token} (h : numberToken? cs = some t) :
    t.isNamed = true := by
  rcases numberToken?_cases h with ⟨n, rfl⟩ | ⟨x, rfl⟩ <;> rfl

/-- The name characters from a name start on are a name. -/
theorem isName_takeWhile {c : Char} (cs : List Char) (h : Text.isNameStart c = true) :
    Text.isName (String.ofList (c :: cs.takeWhile Text.isNamePart)) = true := by
  rw [Text.isName, String.toList_ofList]
  simp only [h, Bool.true_and]
  exact List.all_takeWhile

theorem isNamed_of_cut? {cs text rest : List Char} {t : Token}
    (h : cut? cs = some (t, text, rest)) : t.isNamed = true := by
  unfold cut? at h
  split at h
  · contradiction
  · obtain ⟨rfl, -⟩ := Prod.mk.inj (Option.some.inj h)
    rfl
  · obtain ⟨_, -, h⟩ := Option.map_eq_some_iff.mp h
    obtain ⟨rfl, -⟩ := Prod.mk.inj h
    rfl
  · split at h
    · contradiction
    · obtain ⟨_, -, h⟩ := Option.map_eq_some_iff.mp h
      obtain ⟨rfl, -⟩ := Prod.mk.inj h
      rfl
  · split at h
    · next hpunctuator =>
      obtain ⟨rfl, -⟩ := Prod.mk.inj (Option.some.inj h)
      exact isNamed_of_punctuator? hpunctuator
    · split at h
      · next hstart =>
        obtain ⟨rfl, -⟩ := Prod.mk.inj (Option.some.inj h)
        exact isName_takeWhile _ hstart
      · split at h
        · obtain ⟨token, htoken, h⟩ := Option.map_eq_some_iff.mp h
          obtain ⟨rfl, -⟩ := Prod.mk.inj h
          exact isNamed_of_numberToken? htoken
        · contradiction

/-- The tokens of a text are named. -/
theorem isNamed_of_tokens? {cs : List Char} {ts : List Token} (h : tokens? cs = some ts) :
    ∀ t ∈ ts, t.isNamed = true := by
  induction hlength : cs.length using Nat.strongRecOn generalizing cs ts with
  | ind n ih =>
    subst hlength
    rw [tokens?_eq] at h
    split at h
    · obtain rfl := Option.some.inj h
      nofun
    · obtain ⟨⟨t, text, after⟩, hcut, h⟩ := Option.bind_eq_some_iff.mp h
      obtain ⟨behind, hbehind, rfl⟩ := Option.map_eq_some_iff.mp h
      rw [List.forall_mem_cons]
      exact ⟨isNamed_of_cut? hcut, ih _ (length_after_lt hcut) hbehind rfl⟩

end Lexeme

theorem Token.isNamed_of_ofText? {cs : List Char} {ts : List Token} (h : ofText? cs = some ts) :
    ∀ t ∈ ts, t.isNamed = true :=
  Lexeme.isNamed_of_tokens? (ofText?_eq_some_iff.mp h).1

end QueryCraft
