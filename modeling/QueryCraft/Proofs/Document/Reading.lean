import QueryCraft.Proofs.Executable.Taking
import QueryCraft.Proofs.Outcome

/-!
What reading a text gives: the first query as the operation and every other definition in order, all
of it printable.
-/

namespace QueryCraft

namespace Executable

theorem Definition.formed_of_parseAll {steps : Nat} {ts : List Token} {ds : List Definition}
    (h : parseAll steps ts = some ds) (hnamed : ts.all Token.isNamed = true) :
    ∀ d ∈ ds, d.Formed := by
  induction steps generalizing ts ds with
  | zero => contradiction
  | succ steps ih =>
    unfold parseAll at h
    split at h
    · contradiction
    · next d hparse =>
      obtain rfl := Option.some.inj h
      have hd := (takes_definition steps _ _ _ hparse).good hnamed
      simpa using hd.1
    · next d behind _ hparse =>
      obtain ⟨ds, hparses, rfl⟩ := Option.map_eq_some_iff.mp h
      obtain ⟨hd, hbehind⟩ := (takes_definition steps _ _ _ hparse).good hnamed
      exact List.forall_mem_cons.mpr ⟨hd, ih hparses hbehind⟩

theorem formed_of_ofText? {cs : List Char} {ds : List Definition} (h : ofText? cs = some ds) :
    ∀ d ∈ ds, d.Formed := by
  simp only [ofText?, Option.bind_eq_bind, Option.bind_eq_some_iff] at h
  obtain ⟨ts, htokens, h⟩ := h
  exact Definition.formed_of_parseAll h (List.all_eq_true.mpr (Token.isNamed_of_ofText? htokens))

end Executable

namespace Document

open Executable (Definition)

/-- Of some definitions the first query is the operation, and the others follow in order. -/
theorem ofDefinitions?_append {front : List Definition} {d : Definition} {op : Operation}
    (rest : List Definition) (hfront : ∀ c ∈ front, Operation.ofDefinition? c = none)
    (hd : Operation.ofDefinition? d = some op) :
    ofDefinitions? (front ++ d :: rest) =
      some ⟨op, (front ++ rest).map Verbatim.ofDefinition⟩ := by
  induction front with
  | nil => simp [ofDefinitions?, hd]
  | cons c front ih =>
    rw [List.forall_mem_cons] at hfront
    simp [ofDefinitions?, hfront.1, ih hfront.2]

theorem ofDefinitions?_eq_none_iff {ds : List Definition} :
    ofDefinitions? ds = none ↔ ∀ d ∈ ds, Operation.ofDefinition? d = none := by
  induction ds with
  | nil => simp [ofDefinitions?]
  | cons d ds ih =>
    rw [ofDefinitions?, List.forall_mem_cons]
    cases Operation.ofDefinition? d with
    | some op => simp
    | none => simp [ih]

/-- Definitions either hold no query, or a first one with none in front of it. -/
theorem query_cases (ds : List Definition) :
    (∀ d ∈ ds, Operation.ofDefinition? d = none) ∨
      ∃ front d op rest, ds = front ++ d :: rest ∧
        (∀ c ∈ front, Operation.ofDefinition? c = none) ∧ Operation.ofDefinition? d = some op := by
  induction ds with
  | nil => exact .inl nofun
  | cons d ds ih =>
    cases hd : Operation.ofDefinition? d with
    | some op => exact .inr ⟨[], d, op, ds, rfl, nofun, hd⟩
    | none =>
      rcases ih with hnone | ⟨front, d', op, rest, rfl, hfront, hd'⟩
      · exact .inl (List.forall_mem_cons.mpr ⟨hd, hnone⟩)
      · exact .inr ⟨d :: front, d', op, rest, rfl, List.forall_mem_cons.mpr ⟨hd, hfront⟩, hd'⟩

/-- A document from a text stands for the definitions of the text. -/
theorem parse_ok_iff {text : String} {doc : Document} :
    parse text = .ok doc ↔
      ∃ ds, Executable.ofText? text.toList = some ds ∧ ofDefinitions? ds = some doc := by
  unfold parse ofDefinitions
  cases Executable.ofText? text.toList with
  | none => simp
  | some ds => cases h : ofDefinitions? ds <;> simp [h]

/-- A document that is read from a text is printable, and its objects are maps. -/
theorem formed_of_parse {text : String} {doc : Document} (h : parse text = .ok doc) :
    doc.operation.Formed := by
  obtain ⟨ds, hds, hdoc⟩ := parse_ok_iff.mp h
  have hformed := Executable.formed_of_ofText? hds
  rcases query_cases ds with hnone | ⟨front, d, op, rest, rfl, hfront, hd⟩
  · rw [ofDefinitions?_eq_none_iff.mpr hnone] at hdoc
    contradiction
  · rw [ofDefinitions?_append rest hfront hd] at hdoc
    obtain rfl := Option.some.inj hdoc
    exact hformed d (by simp) op hd

end Document

end QueryCraft
