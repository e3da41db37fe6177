import QueryCraft.Proofs.Token.Gluing

/-!
Texts in front of closing brackets: the brackets are tokens of their own, unless the text ends in a
comment, and then they are part of it. A text that is not made of tokens does not become so.
-/

namespace QueryCraft.Lexeme

theorem splitQuoted_eq_none {cs : List Char} (h : '"' ∉ cs) : splitQuoted cs = none := by
  rw [Option.eq_none_iff_forall_ne_some]
  rintro ⟨body, after⟩ hsplit
  apply h
  rw [← splitQuoted_append hsplit]
  exact List.mem_append_right _ List.mem_cons_self

theorem splitBlock_eq_none {cs : List Char} (h : '"' ∉ cs) : splitBlock cs = none := by
  rw [Option.eq_none_iff_forall_ne_some]
  rintro ⟨body, after⟩ hsplit
  apply h
  rw [← splitBlock_append hsplit]
  exact List.mem_append_right _ List.mem_cons_self

section Unquoted

variable {rest : List Char} (hrest : '"' ∉ rest)
include hrest

/-- A string that is still open at the end of a text is not closed by a text without quotes. -/
theorem splitQuoted_append_rest (cs : List Char) :
    splitQuoted (cs ++ rest) =
      (splitQuoted cs).map fun (body, after) => (body, after ++ rest) := by
  fun_induction splitQuoted cs with
  | case1 => rw [List.nil_append, splitQuoted_eq_none hrest]; rfl
  | case2 => rfl
  | case3 => rfl
  | case4 c cs hc ih =>
    simp only [List.cons_append, splitQuoted, hc, if_false, ih, Option.map_map]
    rfl
  | case5 cs =>
    rw [List.cons_append, splitQuoted]
    · rfl
    · decide
    · intro d ds hslash heq
      contradiction
  | case6 c cs hquote hpair hc ih =>
    cases cs with
    | nil =>
      have hnone : '"' ∉ c :: rest := List.not_mem_cons_of_ne_of_not_mem (Ne.symm hquote) hrest
      rw [List.cons_append, List.nil_append, splitQuoted_eq_none hnone]
      rfl
    | cons e es =>
      rw [List.cons_append, splitQuoted]
      · simp only [hc, if_false, ih, Option.map_map]
        rfl
      · exact hquote
      · intro d ds hslash heq
        exact hpair e es hslash rfl

/-- Quotes in front of the whole stand in front of the text. -/
theorem exists_of_append_quotes {cs more : List Char} (n : Nat)
    (h : cs ++ rest = List.replicate n '"' ++ more) :
    ∃ behind, cs = List.replicate n '"' ++ behind := by
  induction n generalizing cs with
  | zero => exact ⟨cs, rfl⟩
  | succ n ih =>
    rw [List.replicate_succ, List.cons_append] at h
    cases cs with
    | nil =>
      rw [List.nil_append] at h
      rw [h] at hrest
      exact absurd List.mem_cons_self hrest
    | cons c cs =>
      obtain ⟨rfl, htail⟩ := List.cons.inj h
      obtain ⟨behind, rfl⟩ := ih htail
      exact ⟨behind, rfl⟩

theorem splitBlock_append_rest (cs : List Char) :
    splitBlock (cs ++ rest) =
      (splitBlock cs).map fun (body, after) => (body, after ++ rest) := by
  fun_induction splitBlock cs with
  | case1 => rw [List.nil_append, splitBlock_eq_none hrest]; rfl
  | case2 cs ih =>
    simp only [List.cons_append, splitBlock, ih, Option.map_map]
    rfl
  | case3 => rfl
  | case4 c cs hescaped hquotes ih =>
    rw [List.cons_append, splitBlock]
    · simp only [ih, Option.map_map]
      rfl
    · intro ds hslash heq
      obtain ⟨behind, hcs⟩ := exists_of_append_quotes hrest 3 heq
      exact hescaped behind hslash hcs
    · intro ds hquote heq
      obtain ⟨behind, hcs⟩ := exists_of_append_quotes hrest 2 heq
      exact hquotes behind hquote hcs

/-- Behind the text a boundary without quotes, each token in it is cut as before, and none where none
was. -/
theorem cut?_append_rest {cs : List Char} (hne : cs ≠ []) (hboundary : isBoundary rest = true) :
    cut? (cs ++ rest) = (cut? cs).map fun (t, text, after) => (t, text, after ++ rest) := by
  generalize hcut : cut? cs = cut
  have h := hcut
  unfold cut? at h
  split at h
  · contradiction
  · subst h
    rfl
  · next more =>
    rw [List.cons_append, List.cons_append, List.cons_append, cut?,
      splitBlock_append_rest hrest, ← h, Option.map_map, Option.map_map]
    rfl
  · next more hblock =>
    rw [List.cons_append, cut?, splitQuoted_append_rest hrest, ← h]
    · cases splitQuoted more with
      | none => rfl
      | some split =>
        simp only [Option.map_some, Option.map_map]
        rfl
    · intro ds heq
      obtain ⟨behind, rfl⟩ := exists_of_append_quotes hrest 2 heq
      exact hblock behind rfl
  · next c more hdots hblock hquote =>
    rw [cut?_plain_append hdots hquote hboundary, hcut]

end Unquoted

/-- Whether a text ends inside a comment. -/
def endsInComment (cs : List Char) : Bool :=
  let rest := (splitGap false cs).2
  if rest.isEmpty then leavesComment false cs
  else
    match h : cut? rest with
    | none => false
    | some (_, _, after) =>
      have := length_after_lt h
      endsInComment after
termination_by cs.length

theorem endsInComment_eq (cs : List Char) :
    endsInComment cs =
      if (splitGap false cs).2.isEmpty then leavesComment false cs
      else (cut? (splitGap false cs).2).any fun (_, _, after) => endsInComment after := by
  rw [endsInComment]
  split
  · rfl
  · split
    · next h => simp only [h, Option.any_none]
    · next h => simp only [h, Option.any_some]

theorem endsInComment_nil : endsInComment [] = false := by
  rw [endsInComment_eq]
  rfl

/-- The brackets that end the argument and the query. -/
def closing : List Char :=
  [')', ' ', '\x7d']

/-- The tokens of the closing brackets behind a text: none if they are part of a comment. -/
def closers (cs : List Char) : List Token :=
  if endsInComment cs then [] else [.parenR, .braceR]

theorem tokens?_closing : tokens? closing = some [.parenR, .braceR] := by
  rw [closing, tokens?_punctuator _ rfl, tokens?_space, tokens?_punctuator _ rfl, tokens?_nil]
  rfl

/-- In front of the closing brackets, a text consists of the same tokens as on its own. -/
theorem tokens?_append_closing (cs : List Char) :
    tokens? (cs ++ closing) = (tokens? cs).map (· ++ closers cs) := by
  induction hlength : cs.length using Nat.strongRecOn generalizing cs with
  | ind n ih =>
    rw [tokens?_eq cs, closers, endsInComment_eq]
    cases hgap : (splitGap false cs).2.isEmpty with
    | true =>
      have hsplit := splitGap_append_gap hgap closing
      cases hcomment : leavesComment false cs with
      | true =>
        rw [hcomment] at hsplit
        have hnone : (splitGap false (cs ++ closing)).2 = (splitGap false []).2 := hsplit
        rw [tokens?_congr hnone, tokens?_nil]
        rfl
      | false =>
        rw [hcomment] at hsplit
        rw [tokens?_congr hsplit, tokens?_closing]
        rfl
    | false =>
      have hsplit := splitGap_append_token hgap closing
      have hne : (splitGap false cs).2 ≠ [] := List.isEmpty_eq_false_iff.mp hgap
      have hquote : '"' ∉ closing := by decide
      have hboundary : isBoundary closing = true := rfl
      have hopen : ((splitGap false cs).2 ++ closing).isEmpty = false := by simp [hne]
      rw [tokens?_eq (cs ++ closing), hsplit, hopen, cut?_append_rest hquote hne hboundary]
      cases hcut : cut? (splitGap false cs).2 with
      | none => rfl
      | some cut =>
        obtain ⟨t, text, after⟩ := cut
        have hafter := ih after.length (hlength ▸ length_after_lt hcut) after rfl
        simp [hafter, closers, Function.comp_def]

end QueryCraft.Lexeme
