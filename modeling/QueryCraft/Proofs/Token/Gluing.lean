import QueryCraft.Proofs.Token.Scanning

/-!
Texts that are glued together with a line end between them: each token of the first is cut as
before, because a line end is part of no token and closes every comment.
-/

namespace QueryCraft.Lexeme

theorem splitQuoted_append_text {cs body after : List Char}
    (h : splitQuoted cs = some (body, after)) (rest : List Char) :
    splitQuoted (cs ++ rest) = some (body, after ++ rest) := by
  fun_induction splitQuoted cs generalizing body with
  | case1 => contradiction
  | case2 => simp_all [splitQuoted]
  | case3 => contradiction
  | case4 c cs hc ih =>
    simp only [Option.map_eq_some_iff, Prod.mk.injEq, Prod.exists] at h
    obtain ⟨b, r, hb, rfl, rfl⟩ := h
    simp [splitQuoted, hc, ih hb]
  | case5 => contradiction
  | case6 c cs hquote hpair hc ih =>
    simp only [Option.map_eq_some_iff, Prod.mk.injEq, Prod.exists] at h
    obtain ⟨b, r, hb, rfl, rfl⟩ := h
    rw [List.cons_append, splitQuoted]
    · simp [hc, ih hb]
    · exact hquote
    · intro d ds hslash heq
      cases cs with
      | nil => contradiction
      | cons e es => exact hpair e es hslash rfl

theorem splitBlock_append_text {cs body after : List Char}
    (h : splitBlock cs = some (body, after)) (rest : List Char) :
    splitBlock (cs ++ rest) = some (body, after ++ rest) := by
  fun_induction splitBlock cs generalizing body with
  | case1 => contradiction
  | case2 cs ih =>
    simp only [Option.map_eq_some_iff, Prod.mk.injEq, Prod.exists] at h
    obtain ⟨b, r, hb, rfl, rfl⟩ := h
    simp [splitBlock, ih hb]
  | case3 => simp_all [splitBlock]
  | case4 c cs hescaped hquotes ih =>
    simp only [Option.map_eq_some_iff, Prod.mk.injEq, Prod.exists] at h
    obtain ⟨b, r, hb, rfl, rfl⟩ := h
    -- The closing quotes are still to come, so three characters are, and they decide the case.
    obtain ⟨x, y, z, more, rfl⟩ : ∃ x y z more, cs = x :: y :: z :: more := by
      have hlength := congrArg List.length (splitBlock_append hb)
      match cs with
      | x :: y :: z :: more => exact ⟨x, y, z, more, rfl⟩
      | [] | [_] | [_, _] =>
        simp only [Text.Block.quotes, List.length_append, List.length_cons, List.length_nil]
          at hlength
        omega
    have hmore := ih hb
    rw [List.cons_append, splitBlock]
    · rw [hmore]
      rfl
    · intro ds hslash heq
      simp only [List.cons_append, List.cons.injEq] at heq
      obtain ⟨rfl, rfl, rfl, -⟩ := heq
      exact hescaped more hslash rfl
    · intro ds hquote heq
      simp only [List.cons_append, List.cons.injEq] at heq
      obtain ⟨rfl, rfl, -⟩ := heq
      exact hquotes (z :: more) hquote rfl

theorem cut?_quoted_append_line {cs body after content : List Char}
    (hblock : ∀ ds, cs ≠ '"' :: '"' :: ds) (hsplit : splitQuoted cs = some (body, after))
    (hread : Text.Quoted.read? body = some content) (rest : List Char) :
    cut? ('"' :: cs ++ '\n' :: rest) =
      some (.string (String.ofList content), '"' :: (body ++ ['"']), after ++ '\n' :: rest) := by
  rw [List.cons_append, cut?]
  · simp [splitQuoted_append_text hsplit, hread]
  · intro ds heq
    -- Two more quotes would have to stand in the first text already.
    rcases cs with _ | ⟨c, _ | ⟨d, more⟩⟩
    · contradiction
    · simp at heq
    · simp only [List.cons_append, List.cons.injEq] at heq
      obtain ⟨rfl, rfl, -⟩ := heq
      exact hblock more rfl

/-- Punctuators, names and numbers: the runs of characters in them end in front of a boundary. -/
theorem cut?_plain_append {c : Char} {cs rest : List Char}
    (hdots : ∀ ds, c = '.' → cs = '.' :: '.' :: ds → False) (hquote : c ≠ '"')
    (hrest : isBoundary rest = true) :
    cut? (c :: cs ++ rest) =
      (cut? (c :: cs)).map fun (t, text, after) => (t, text, after ++ rest) := by
  obtain ⟨hname, hnames⟩ := span_append_boundary isNamePart_of_endsNumber cs hrest
  obtain ⟨hnumber, hnumbers⟩ :=
    span_append_boundary (p := fun d => !endsNumber d) (fun d hd => by simp [hd]) cs hrest
  rw [List.cons_append, cut?, cut?]
  · simp only [hname, hnames, hnumber, hnumbers]
    split
    · rfl
    · split
      · rfl
      · split
        · simp only [Option.map_map]
          rfl
        · rfl
  · exact hdots
  · exact fun _ heq _ => hquote heq
  · exact hquote
  · intro ds hdot heq
    -- A boundary does not start with a dot.
    rcases cs with _ | ⟨d, _ | ⟨e, more⟩⟩
    · rw [List.nil_append] at heq
      rw [heq] at hrest
      contradiction
    · simp only [List.cons_append, List.nil_append, List.cons.injEq] at heq
      rw [heq.2] at hrest
      contradiction
    · simp only [List.cons_append, List.cons.injEq] at heq
      obtain ⟨rfl, rfl, -⟩ := heq
      exact hdots more hdot rfl
  · exact fun _ heq _ => hquote heq
  · exact hquote

/-- A token is cut as before when a line end and another text follow. -/
theorem cut?_append_line {cs text after : List Char} {t : Token}
    (h : cut? cs = some (t, text, after)) (rest : List Char) :
    cut? (cs ++ '\n' :: rest) = some (t, text, after ++ '\n' :: rest) := by
  have hcut := h
  unfold cut? at h
  split at h
  · contradiction
  · simp only [Option.some.injEq, Prod.mk.injEq] at h
    obtain ⟨rfl, rfl, rfl⟩ := h
    rfl
  · simp only [Option.map_eq_some_iff, Prod.mk.injEq, Prod.exists] at h
    obtain ⟨b, r, hb, rfl, rfl, rfl⟩ := h
    simp [cut?, splitBlock_append_text hb]
  · next cs hblock =>
    split at h
    · contradiction
    · next body r hb =>
      simp only [Option.map_eq_some_iff, Prod.mk.injEq] at h
      obtain ⟨content, hcontent, rfl, rfl, rfl⟩ := h
      exact cut?_quoted_append_line hblock hb hcontent rest
  · next c cs hdots hblock hquote =>
    have hline : isBoundary ('\n' :: rest) = true := rfl
    rw [cut?_plain_append hdots hquote hline, hcut]
    rfl

/-- Gaps leave no trace in the tokens. -/
theorem tokens?_congr {cs others : List Char}
    (h : (splitGap false cs).2 = (splitGap false others).2) : tokens? cs = tokens? others := by
  rw [tokens?_eq, tokens?_eq others, h]

/-- Whether a text without tokens ends inside a comment, if it starts inside one or not. -/
def leavesComment (inComment : Bool) (gap : List Char) : Bool :=
  gap.foldl (fun inside c => if inside then !endsComment c else c == '#') inComment

/-- A gap in front of a text goes on with it. -/
theorem splitGap_append_gap {inComment : Bool} {cs : List Char}
    (h : (splitGap inComment cs).2.isEmpty = true) (rest : List Char) :
    (splitGap inComment (cs ++ rest)).2 = (splitGap (leavesComment inComment cs) rest).2 := by
  induction cs generalizing inComment with
  | nil => rfl
  | cons c cs ih =>
    cases inComment with
    | true => exact ih h
    | false =>
      simp only [splitGap] at h
      split at h
      · next hc =>
        rw [List.cons_append, splitGap, if_pos hc]
        exact ih h
      · contradiction

/-- A gap ends in front of a token, whatever follows. -/
theorem splitGap_append_token {inComment : Bool} {cs : List Char}
    (h : (splitGap inComment cs).2.isEmpty = false) (rest : List Char) :
    (splitGap inComment (cs ++ rest)).2 = (splitGap inComment cs).2 ++ rest := by
  induction cs generalizing inComment with
  | nil => cases inComment <;> contradiction
  | cons c cs ih =>
    cases inComment with
    | true => exact ih h
    | false =>
      simp only [splitGap] at h
      split at h
      · next hc =>
        rw [List.cons_append, splitGap, splitGap, if_pos hc, if_pos hc]
        exact ih h
      · next hc =>
        rw [List.cons_append, splitGap, splitGap, if_neg hc, if_neg hc]
        rfl

/-- Behind a line end a new gap starts, also where the first text ends in a comment. -/
theorem splitGap_line (inComment : Bool) (rest : List Char) :
    (splitGap inComment ('\n' :: rest)).2 = (splitGap false rest).2 := by
  cases inComment <;> rfl

/-- A text that consists of tokens keeps them in front of a line end and any other text. -/
theorem tokens?_append_line {cs : List Char} {ts : List Token} (h : tokens? cs = some ts)
    (rest : List Char) : tokens? (cs ++ '\n' :: rest) = (tokens? rest).map (ts ++ ·) := by
  induction hlength : cs.length using Nat.strongRecOn generalizing cs ts with
  | ind n ih =>
    rw [tokens?_eq] at h
    split at h
    · next hempty =>
      obtain rfl := Option.some.inj h
      rw [tokens?_congr ((splitGap_append_gap hempty _).trans (splitGap_line _ rest))]
      simp
    · next hne =>
      obtain ⟨⟨t, text, after⟩, hcut, hafter⟩ := Option.bind_eq_some_iff.mp h
      obtain ⟨us, hus, rfl⟩ := Option.map_eq_some_iff.mp hafter
      have hshorter := length_after_lt hcut
      have hlater := ih after.length (by omega) hus rfl
      have hgap := splitGap_append_token (Bool.eq_false_iff.mpr hne) ('\n' :: rest)
      rw [tokens?_eq, hgap, cut?_append_line hcut rest]
      simp [hlater, Function.comp_def]

end QueryCraft.Lexeme
