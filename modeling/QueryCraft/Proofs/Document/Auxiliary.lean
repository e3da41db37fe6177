import QueryCraft.Proofs.Document.Reading
import QueryCraft.Proofs.Document.RoundTrip
import QueryCraft.Proofs.Document.Sameness
import QueryCraft.Proofs.Token.Gluing

/-!
Auxiliary definitions survive printing. The printed text puts the operation in front of them and
glues their sources together; it is read definition by definition, so that the operation is found
first and the others follow in order. There is a text for each indent that leaves no margin of the
operation too wide.
-/

namespace QueryCraft

namespace Token

/-- Tokens within a budget leave as much of it as they leave brackets closed. -/
theorem nestWithin_append {budget : Nat} {ts : List Token} (h : nestWithin budget ts = true)
    (us : List Token) :
    nestWithin budget (ts ++ us) = nestWithin (budget - balance ts : Int).toNat us := by
  induction ts generalizing budget with
  | nil => simp [balance]
  | cons t ts ih =>
    cases t with
    | parenL | bracketL | braceL =>
      cases budget with
      | zero => contradiction
      | succ n =>
        have hleft : ((n + 1 : Nat) : Int) - (1 + balance ts) = n - balance ts := by omega
        simp only [balance, weight, hleft]
        exact ih h
    | parenR | bracketR | braceR =>
      have hleft : (budget : Int) - (-1 + balance ts) = (budget + 1 : Nat) - balance ts := by omega
      simp only [balance, weight, hleft]
      exact ih h
    | _ =>
      simp only [balance, weight, Int.zero_add]
      exact ih h

end Token

namespace Executable.Definition

/-- What it means that some tokens are a definition on their own: they are read as it whatever
stands behind them, and they close the brackets that they open. -/
structure ReadsAs (ts : List Token) (d : Definition) : Prop where
  ne_nil : ts ≠ []
  fits : Token.nestWithin Token.maxNesting ts = true
  balanced : Token.balance ts = 0
  parse : ∀ steps others, 4 * ts.length + 3 ≤ steps → parse steps (ts ++ others) = some (d, others)

theorem readsAs_of_parse {ts : List Token} {d : Definition}
    (h : Definition.parse (4 * ts.length + 3) ts = some (d, []))
    (hfits : Token.nestWithin Token.maxNesting ts = true) : ReadsAs ts d := by
  have htook := takes_definition _ _ _ _ h
  refine ⟨htook.ne_nil (.inl rfl), hfits, ?_, fun steps others hsteps => ?_⟩
  · simpa [Token.balance] using htook.balance
  · simpa using htook.again steps others hsteps (.inl rfl)

theorem parseAll_ne_nil (steps : Nat) (ts : List Token) : parseAll steps ts ≠ some [] := by
  cases steps with
  | zero => simp [parseAll]
  | succ steps =>
    unfold parseAll
    split
    · simp
    · simp
    · simp

/-- A single definition takes all tokens. -/
theorem parse_of_parseAll {steps : Nat} {ts : List Token} {d : Definition}
    (h : parseAll (steps + 1) ts = some [d]) : Definition.parse steps ts = some (d, []) := by
  rw [parseAll] at h
  split at h
  · contradiction
  · next d' hparse =>
    obtain rfl := (List.cons.inj (Option.some.inj h)).1
    exact hparse
  · next d' behind _ _ =>
    obtain ⟨ds, hparses, heq⟩ := Option.map_eq_some_iff.mp h
    obtain ⟨-, rfl⟩ := List.cons.inj heq
    exact absurd hparses (parseAll_ne_nil _ _)

/-- A text that is one definition, in tokens. -/
theorem exists_readsAs_of_ofText? {cs : List Char} {d : Definition} (h : ofText? cs = some [d]) :
    ∃ ts, Lexeme.tokens? cs = some ts ∧ ReadsAs ts d := by
  simp only [ofText?, Option.bind_eq_bind, Option.bind_eq_some_iff] at h
  obtain ⟨ts, htokens, hparse⟩ := h
  obtain ⟨htokens, hfits⟩ := Token.ofText?_eq_some_iff.mp htokens
  exact ⟨ts, htokens, readsAs_of_parse (parse_of_parseAll hparse) hfits⟩

section Glued

variable {parts : List (List Token × Definition)}

theorem nestWithin_glued (h : ∀ p ∈ parts, ReadsAs p.1 p.2) :
    Token.nestWithin Token.maxNesting (parts.flatMap Prod.fst) = true := by
  induction parts with
  | nil => rfl
  | cons p parts ih =>
    rw [List.forall_mem_cons] at h
    rw [List.flatMap_cons, Token.nestWithin_append h.1.fits, h.1.balanced]
    exact ih h.2

/-- Tokens of definitions, glued together, are read as these definitions. -/
theorem parseAll_glued (h : ∀ p ∈ parts, ReadsAs p.1 p.2) (hne : parts ≠ []) {steps : Nat}
    (hsteps : 4 * (parts.flatMap Prod.fst).length + 4 ≤ steps) :
    parseAll steps (parts.flatMap Prod.fst) = some (parts.map Prod.snd) := by
  induction parts generalizing steps with
  | nil => contradiction
  | cons p parts ih =>
    rw [List.forall_mem_cons] at h
    have hpositive := List.length_pos_iff.mpr h.1.ne_nil
    rw [List.flatMap_cons, List.length_append] at hsteps
    cases steps with
    | zero => omega
    | succ steps =>
      have hparse := h.1.parse steps (parts.flatMap Prod.fst) (by omega)
      cases parts with
      | nil =>
        rw [List.flatMap_nil, List.append_nil] at hparse
        simp [parseAll, hparse]
      | cons q rest =>
        obtain ⟨t, ts, hts⟩ := List.exists_cons_of_ne_nil (h.2 q List.mem_cons_self).ne_nil
        have hrest : parseAll steps ((q :: rest).flatMap Prod.fst) =
            some ((q :: rest).map Prod.snd) :=
          ih h.2 (by simp) (by omega)
        rw [List.flatMap_cons, parseAll, hparse]
        simp only [List.flatMap_cons, hts, List.cons_append] at hrest ⊢
        simp [hrest]

end Glued

/-- Whether the definition is a query, with or without the keyword. -/
def isQuery : Definition → Bool
  | .shorthand _ | .operation .query .. => true
  | _ => false

theorem isSome_ofDefinition? (d : Definition) : (Operation.ofDefinition? d).isSome = d.isQuery := by
  cases d with
  | operation kind => cases kind <;> rfl
  | _ => rfl

end Executable.Definition

open Executable (Definition)

/-- Whether the source of a node is one definition, and one that is kept as this node. -/
def Verbatim.standsAlone (node : Verbatim) : Bool :=
  match Executable.ofText? node.source.toList with
  | some [d] => Verbatim.ofDefinition d == node
  | _ => false

theorem Verbatim.standsAlone_iff {node : Verbatim} :
    node.standsAlone = true ↔
      ∃ d, Executable.ofText? node.source.toList = some [d] ∧ Verbatim.ofDefinition d = node := by
  unfold standsAlone
  split
  · next d htext => simp [htext]
  · next hother =>
    constructor
    · intro h
      contradiction
    · rintro ⟨d, htext, -⟩
      exact absurd htext (hother d)

/-- The sources of nodes that stand alone, glued together. -/
theorem Verbatim.exists_parts {nodes : List Verbatim}
    (h : ∀ node ∈ nodes, node.standsAlone = true) :
    ∃ parts : List (List Token × Definition), (∀ p ∈ parts, Definition.ReadsAs p.1 p.2) ∧
      Lexeme.tokens? (nodes.flatMap definitionChars) = some (parts.flatMap Prod.fst) ∧
      parts.map (ofDefinition ∘ Prod.snd) = nodes := by
  induction nodes with
  | nil => exact ⟨[], by simp, Lexeme.tokens?_nil, rfl⟩
  | cons node nodes ih =>
    rw [List.forall_mem_cons] at h
    obtain ⟨parts, hparts, htokens, hnodes⟩ := ih h.2
    obtain ⟨d, htext, hnode⟩ := standsAlone_iff.mp h.1
    obtain ⟨ts, hts, hreads⟩ := Definition.exists_readsAs_of_ofText? htext
    have hall : ∀ p ∈ (ts, d) :: parts, Definition.ReadsAs p.1 p.2 :=
      List.forall_mem_cons.mpr ⟨hreads, hparts⟩
    refine ⟨(ts, d) :: parts, hall, ?_, by simp [hnode, hnodes]⟩
    have hglued := Lexeme.tokens?_append_line hts (nodes.flatMap definitionChars)
    simp [definitionChars, hglued, htokens]

namespace Document

variable {d : Document}

/-- The document without its auxiliary definitions. -/
def alone (d : Document) : Document :=
  { d with auxiliary := [] }

/-- Behind a printable operation within the bound on brackets, the auxiliary definitions are read
one after the other. -/
theorem parse_toText_of_standsAlone (indent : Nat) (hprintable : d.isPrintable = true)
    (hstructured : d.alone.isStructured = true) (hlegible : d.operation.isLegible = true)
    (hnesting : d.nesting ≤ Token.maxNesting)
    (hnodes : ∀ node ∈ d.auxiliary, node.standsAlone = true) :
    parse (d.toText indent) = .ok ⟨d.reread.sorted.operation, d.auxiliary⟩ := by
  simp only [isStructured, alone, List.isEmpty_nil, Bool.true_and] at hstructured
  obtain ⟨parts, hparts, htokens, hauxiliary⟩ := Verbatim.exists_parts hnodes
  have hfields : ∀ s ∈ d.reread.operation.selections, s.everywhere Selection.isField = true := by
    rw [Selection.allEverywhere_iff] at hstructured
    simp only [reread, map, Operation.map, Selection.mapAll_eq_map, List.forall_mem_map,
      Selection.isField_map]
    exact hstructured
  obtain ⟨q, hparse, hq⟩ := Executable.parse_operation (isPrintable_reread hprintable) hfields
    (4 * d.reread.operation.tokens.length + 3) (by omega)
  have hfits : Token.nestWithin Token.maxNesting d.reread.operation.tokens = true := by
    have hreread : d.reread.operation = d.operation.reread := rfl
    rw [hreread, Operation.nestWithin_tokens, Operation.nesting_reread]
    exact decide_eq_true hnesting
  have hall : ∀ p ∈ (d.reread.operation.tokens, q) :: parts, Definition.ReadsAs p.1 p.2 :=
    List.forall_mem_cons.mpr ⟨Definition.readsAs_of_parse hparse hfits, hparts⟩
  have hlex : Lexeme.tokens? (d.chars indent) =
      some (((d.reread.operation.tokens, q) :: parts).flatMap Prod.fst) := by
    rw [chars, Operation.spells indent hprintable hstructured, hlegible, htokens]
    rfl
  have htext : Executable.ofText? (d.chars indent) = some (q :: parts.map Prod.snd) := by
    have htokens := Token.ofText?_eq_some_iff.mpr ⟨hlex, Definition.nestWithin_glued hall⟩
    have hdefinitions := Definition.parseAll_glued hall (by simp) (Nat.le_refl _)
    simp only [Executable.ofText?, Option.bind_eq_bind, htokens, Option.bind_some]
    exact hdefinitions
  have hdocument : ofDefinitions? (q :: parts.map Prod.snd) =
      some ⟨d.reread.sorted.operation, d.auxiliary⟩ := by
    rw [ofDefinitions?, hq, List.map_map, hauxiliary]
    rfl
  rw [parse, toText, String.toList_ofList, htext]
  simp only [ofDefinitions, hdocument]

/-- An operation that is read back on its own is printable and legible, and so are its auxiliary
definitions read back with it, at every indent. -/
theorem parse_toText_of_alone {e : Document} {indent : Nat}
    (hfields : Selection.allEverywhere Selection.isField d.operation.selections = true)
    (hparse : parse (d.alone.toText indent) = .ok e) (hsame : e.same d.alone = true)
    (hnodes : ∀ node ∈ d.auxiliary, node.standsAlone = true) (other : Nat) :
    ∃ e, parse (d.toText other) = .ok e ∧ e.same d = true ∧ e.auxiliary = d.auxiliary ∧
      parse (d.alone.toText other) = .ok e.alone := by
  have hstructured : d.alone.isStructured = true := by
    simpa [isStructured, alone] using hfields
  have hoperation : e.operation.same d.operation = true := by
    simp only [same, alone, Bool.and_eq_true] at hsame
    exact hsame.1
  have hprintable : d.isPrintable = true := ((formed_of_parse hparse).of_same hoperation).printable
  have halone (n : Nat) := parse_toText_eq (d := d.alone) n hprintable hstructured
  by_cases hreadable : (d.operation.isLegible && decide (d.nesting ≤ Token.maxNesting)) = true
  · have hread (n : Nat) : parse (d.alone.toText n) = .ok d.alone.reread.sorted :=
      (halone n).trans (if_pos hreadable)
    obtain rfl := Except.ok.inj (hparse.symm.trans (hread indent))
    rw [Bool.and_eq_true, decide_eq_true_eq] at hreadable
    have htext := parse_toText_of_standsAlone other hprintable hstructured hreadable.1 hreadable.2
      hnodes
    refine ⟨_, htext, ?_, rfl, hread other⟩
    simp only [same, Bool.and_eq_true, beq_self_eq_true, and_true]
    exact hoperation
  · have hrefused : parse (d.alone.toText indent) = .error .malformed :=
      (halone indent).trans (if_neg hreadable)
    rw [hparse] at hrefused
    contradiction

/-- A text that is read stands for its first query, with all other definitions in order. -/
theorem parse_of_query {text : String} {front rest : List Definition} {q : Definition}
    (htext : Executable.ofText? text.toList = some (front ++ q :: rest))
    (hfront : ∀ c ∈ front, c.isQuery = false) (hq : q.isQuery = true) :
    ∃ op, Operation.ofDefinition? q = some op ∧
      parse text = .ok ⟨op, (front ++ rest).map Verbatim.ofDefinition⟩ := by
  rw [← Definition.isSome_ofDefinition?, Option.isSome_iff_exists] at hq
  obtain ⟨op, hop⟩ := hq
  have hnone : ∀ c ∈ front, Operation.ofDefinition? c = none := by
    intro c hc
    rw [← Option.not_isSome_iff_eq_none, Definition.isSome_ofDefinition?, hfront c hc]
    exact Bool.false_ne_true
  exact ⟨op, hop, parse_ok_iff.mpr ⟨_, htext, ofDefinitions?_append rest hnone hop⟩⟩

/-- A text that is read is refused exactly if it holds no query. -/
theorem parse_error_iff {text : String} {ds : List Definition}
    (htext : Executable.ofText? text.toList = some ds) (error : DocumentError) :
    parse text = .error error ↔ (∀ c ∈ ds, c.isQuery = false) ∧
      error = .noQuery (ds.map fun c => (Verbatim.ofDefinition c).kind) := by
  have hnone : (∀ c ∈ ds, c.isQuery = false) ↔ ofDefinitions? ds = none := by
    rw [ofDefinitions?_eq_none_iff]
    refine forall₂_congr fun c _ => ?_
    rw [← Definition.isSome_ofDefinition?, Option.isSome_eq_false_iff, Option.isNone_iff_eq_none]
  rw [hnone, parse, htext]
  simp only [ofDefinitions]
  cases ofDefinitions? ds with
  | none => simp [eq_comm]
  | some d => simp

/-- A document whose auxiliary definitions stand alone, and whose operation is read back on its own,
is printed and read back at every indent that leaves no margin too wide. And a text that is read
stands for its first query, with all other definitions behind it in order; it is refused if it holds
no query. -/
theorem parse_auxiliary (d : Document) (source : String) :
    (∀ indent : Nat,
      Selection.allEverywhere Selection.isField d.operation.selections = true →
      (∃ text e, d.alone.print? indent = some text ∧ parse text = .ok e ∧
        e.same d.alone = true) →
      (∀ node ∈ d.auxiliary, node.standsAlone = true) →
      ∀ other, (d.levels * other ≤ maxWidth → ∃ text own e, d.print? other = some text ∧
          d.alone.print? other = some own ∧ parse text = .ok e ∧ e.same d = true ∧
          e.auxiliary = d.auxiliary ∧ parse own = .ok e.alone) ∧
        (maxWidth < d.levels * other → d.print? other = none)) ∧
    ∀ ds : List Definition, Executable.ofText? source.toList = some ds →
      (∀ front q rest, ds = front ++ q :: rest → (∀ c ∈ front, c.isQuery = false) →
        q.isQuery = true → ∃ op, Operation.ofDefinition? q = some op ∧
          parse source = .ok ⟨op, (front ++ rest).map Verbatim.ofDefinition⟩) ∧
      ∀ error, parse source = .error error ↔ (∀ c ∈ ds, c.isQuery = false) ∧
        error = .noQuery (ds.map fun c => (Verbatim.ofDefinition c).kind) := by
  constructor
  · rintro indent hfields ⟨own, e, hprint, hparse, hsame⟩ hnodes other
    obtain ⟨-, rfl⟩ := print?_eq_some_iff.mp hprint
    obtain ⟨e, htext, hsame, hauxiliary, hown⟩ :=
      parse_toText_of_alone hfields hparse hsame hnodes other
    refine ⟨fun hwidth => ?_, print?_of_lt⟩
    exact ⟨_, _, e, print?_of_le hwidth, print?_of_le hwidth, htext, hsame, hauxiliary, hown⟩
  · intro ds htext
    refine ⟨?_, parse_error_iff htext⟩
    rintro front q rest rfl hfront hq
    exact parse_of_query htext hfront hq

/-- A query with auxiliary definitions, one of them another query. -/
private def glued : Document where
  operation :=
    { name := none
      definitions := []
      directives := []
      selections := [.branch ⟨none, "owner", [⟨"size", .int 3⟩], []⟩ [.leaf ⟨none, "id", [], []⟩]] }
  auxiliary :=
    [⟨.query, "query Other \x7b\n  b\n\x7d"⟩,
      ⟨.fragmentDefinition, "fragment F on T \x7b\n  c\n\x7d"⟩]

private def mixed : String :=
  "mutation \x7b a \x7d \x7b b \x7d fragment F on T \x7b c \x7d"

private theorem parse_alone_glued :
    ∃ text e, glued.alone.print? 2 = some text ∧ parse text = .ok e ∧
      e.same glued.alone = true := by
  have hrun : (parse (glued.alone.toText 2)).toOption.any (·.same glued.alone) = true := by
    decide +kernel
  obtain ⟨e, hparse, hsame⟩ := exists_of_toOption_any hrun
  exact ⟨_, e, print?_of_le (by decide), hparse, hsame⟩

theorem parse_auxiliary_glued :
    (∃ text e, glued.print? 7 = some text ∧ parse text = .ok e ∧ e.same glued = true ∧
      e.auxiliary = glued.auxiliary) ∧
    glued.print? 32768 = none ∧
    ∃ c q f op, Executable.ofText? mixed.toList = some [c, q, f] ∧
      parse mixed = .ok ⟨op, [c, f].map Verbatim.ofDefinition⟩ := by
  obtain ⟨hprint, hread⟩ := parse_auxiliary glued mixed
  have hprint := hprint 2 (by decide) parse_alone_glued (by decide +kernel)
  refine ⟨?_, (hprint 32768).2 (by decide), ?_⟩
  · obtain ⟨text, own, e, htext, -, hparse, hsame, hauxiliary, -⟩ := (hprint 7).1 (by decide)
    exact ⟨text, e, htext, hparse, hsame, hauxiliary⟩
  · have hrun : (Executable.ofText? mixed.toList).any (fun ds =>
        ds.map Definition.isQuery == [false, true, false]) = true := by
      decide +kernel
    obtain ⟨ds, htext, hqueries⟩ := (Option.any_eq_true _ _).mp hrun
    obtain ⟨c, ds, rfl, hc, hds⟩ := List.map_eq_cons_iff.mp (beq_iff_eq.mp hqueries)
    obtain ⟨q, ds, rfl, hq, hds⟩ := List.map_eq_cons_iff.mp hds
    obtain ⟨f, ds, rfl, -, hds⟩ := List.map_eq_cons_iff.mp hds
    obtain rfl := List.map_eq_nil_iff.mp hds
    obtain ⟨op, -, hparse⟩ := (hread _ htext).1 [c] q [f] rfl
      (List.forall_mem_singleton.mpr hc) hq
    exact ⟨c, q, f, op, htext, hparse⟩

/-- A document that is read back at one indent need not be printed at another one. -/
theorem print_glued_eq_none :
    Selection.allEverywhere Selection.isField glued.operation.selections = true ∧
    (∃ text e, glued.alone.print? 2 = some text ∧ parse text = .ok e ∧
      e.same glued.alone = true) ∧
    (∀ node ∈ glued.auxiliary, node.standsAlone = true) ∧ glued.print? 65536 = none :=
  ⟨by decide, parse_alone_glued, by decide +kernel, print?_of_lt (by decide)⟩

end Document

end QueryCraft
