import QueryCraft.Proofs.Token.Naming

/-!
A string is shorter than its source. Its quotes are left out, an escape is longer than the character
it stands for, and a block string loses indents, blank lines and the ends of its lines.
-/

namespace QueryCraft

namespace Text

theorem length_trim_le (cs : List Char) : (trim cs).length ≤ cs.length := by
  have hstart : (trimStart cs).length ≤ cs.length := (List.dropWhile_suffix _).length_le
  have hend : (trim cs).length ≤ (trimStart cs).length := by
    simpa [trim, trimEnd] using
      (List.dropWhile_suffix (l := (trimStart cs).reverse) isBlank).length_le
  exact Nat.le_trans hend hstart

/-- A replacement that is no longer than the pattern makes no text longer. -/
theorem length_replaceFrom_le {pattern new : List Char} (h : new.length ≤ pattern.length)
    (skip : Nat) (cs : List Char) :
    (replaceFrom pattern new skip cs).length ≤ cs.length - skip := by
  induction cs generalizing skip with
  | nil => simp [replaceFrom]
  | cons c cs ih =>
    cases skip with
    | succ skip => simpa [replaceFrom] using ih skip
    | zero =>
      rw [replaceFrom]
      split
      · next hfound =>
        have hpattern : pattern.length ≤ (c :: cs).length :=
          (List.isPrefixOf_iff_prefix.mp hfound).length_le
        have hrest := ih (pattern.length - 1)
        simp only [List.length_append, List.length_cons] at hpattern ⊢
        omega
      · simpa using ih 0

/-- What lines take up in a text, each with its end. -/
def lineSpace : List (List Char) → Nat
  | [] => 0
  | l :: ls => l.length + 1 + lineSpace ls

theorem lineSpace_cons (l : List Char) (ls : List (List Char)) :
    lineSpace (l :: ls) = l.length + 1 + lineSpace ls :=
  rfl

/-- Only the last line of a text can be without an end. -/
theorem lineSpace_lines_le (cs : List Char) : lineSpace (lines cs) ≤ cs.length + 1 := by
  fun_induction lines cs with
  | case1 => simp [lineSpace]
  | case2 cs ih =>
    rw [lineSpace_cons]
    simp only [List.length_nil, List.length_cons]
    omega
  | case3 cs ih =>
    rw [lineSpace_cons]
    simp only [List.length_nil, List.length_cons]
    omega
  | case4 c cs _ _ hlines ih => simp [lineSpace]
  | case5 c cs _ _ l ls hlines ih =>
    rw [hlines, lineSpace_cons] at ih
    rw [lineSpace_cons]
    simp only [List.length_cons]
    omega

/-- Lines that are joined have an end each but for the last one. -/
theorem length_join_le (ls : List (List Char)) : (join ['\n'] ls).length ≤ lineSpace ls - 1 := by
  fun_induction join ['\n'] ls with
  | case1 => simp [lineSpace]
  | case2 l => simp [lineSpace]
  | case3 l m ls ih =>
    rw [lineSpace_cons] at ih ⊢
    rw [lineSpace_cons]
    simp only [List.length_append, List.length_cons, List.length_nil]
    omega

theorem lineSpace_map_le {f : List Char → List Char} (h : ∀ l, (f l).length ≤ l.length)
    (ls : List (List Char)) : lineSpace (ls.map f) ≤ lineSpace ls := by
  induction ls with
  | nil => simp [lineSpace]
  | cons l ls ih =>
    have hl := h l
    rw [List.map_cons, lineSpace_cons, lineSpace_cons]
    omega

theorem lineSpace_le_of_sublist {ls ms : List (List Char)} (h : ls.Sublist ms) :
    lineSpace ls ≤ lineSpace ms := by
  induction h with
  | slnil => exact Nat.le_refl _
  | cons l _ ih =>
    rw [lineSpace_cons]
    omega
  | cons_cons l _ ih =>
    rw [lineSpace_cons, lineSpace_cons]
    omega

namespace Block

theorem length_dropBytes_le (n : Nat) (cs : List Char) : (dropBytes n cs).length ≤ cs.length := by
  fun_induction dropBytes n cs with
  | case1 cs => exact Nat.le_refl _
  | case2 => exact Nat.le_refl _
  | case3 n c cs _ ih =>
    rw [List.length_cons]
    omega

theorem length_unindent_le (indent : Option Nat) (line : List Char) :
    (unindent indent line).length ≤ line.length := by
  unfold unindent
  split
  · exact Nat.le_refl _
  · split
    · exact length_dropBytes_le _ line
    · exact Nat.le_refl _

theorem dropBlankEnds_sublist (ls : List (List Char)) : (dropBlankEnds ls).Sublist ls := by
  have hfront := (List.dropWhile_suffix (l := ls) isBlankLine).sublist
  have hback := (List.dropWhile_suffix (l := (ls.dropWhile isBlankLine).reverse)
    isBlankLine).sublist.reverse
  rw [List.reverse_reverse] at hback
  exact hback.trans hfront

/-- A block string is no longer than what stands between its quotes. -/
theorem length_read_le (body : List Char) : (read body).length ≤ body.length := by
  have hlines := lineSpace_lines_le body
  unfold read
  split
  · exact Nat.zero_le _
  · next first others hcut =>
    have hquotes (line : List Char) : (replace escapedQuotes quotes line).length ≤ line.length :=
      length_replaceFrom_le (by decide) 0 line
    have hjoin := length_join_le ((dropBlankEnds
      (first :: others.map (unindent (sharedIndent others)))).map (replace escapedQuotes quotes))
    have hreplace := lineSpace_map_le hquotes
      (dropBlankEnds (first :: others.map (unindent (sharedIndent others))))
    have hends := lineSpace_le_of_sublist
      (dropBlankEnds_sublist (first :: others.map (unindent (sharedIndent others))))
    have hindent := lineSpace_map_le (length_unindent_le (sharedIndent others)) others
    rw [hcut, lineSpace_cons] at hlines
    rw [lineSpace_cons] at hends
    dsimp only
    omega

end Block

/-- A quoted string is no longer than what stands between its quotes. -/
theorem Quoted.length_read?_le {body text : List Char} (h : read? body = some text) :
    text.length ≤ body.length := by
  fun_induction read? body generalizing text with
  | case1 =>
    obtain rfl := Option.some.inj h
    exact Nat.le_refl _
  | case2 a b c d rest ih =>
    simp only [Option.bind_eq_bind, Option.bind_eq_some_iff] at h
    obtain ⟨code, -, h⟩ := h
    split at h
    · obtain ⟨behind, hbehind, htext⟩ := Option.bind_eq_some_iff.mp h
      obtain rfl := Option.some.inj htext
      have hle := ih hbehind
      simp only [List.length_cons]
      omega
    · contradiction
  | case3 e rest _ ih =>
    simp only [Option.bind_eq_bind, Option.bind_eq_some_iff] at h
    obtain ⟨c, -, behind, hbehind, htext⟩ := h
    obtain rfl := Option.some.inj htext
    have hle := ih hbehind
    simp only [List.length_cons]
    omega
  | case4 => contradiction
  | case5 c rest _ _ _ ih =>
    simp only [Option.bind_eq_bind, Option.bind_eq_some_iff] at h
    obtain ⟨behind, hbehind, htext⟩ := h
    obtain rfl := Option.some.inj htext
    have hle := ih hbehind
    simp only [List.length_cons]
    omega

end Text

namespace Lexeme

theorem ne_string_of_punctuator? {c : Char} {t : Token} (h : Token.punctuator? c = some t)
    (s : String) : t ≠ .string s := by
  unfold Token.punctuator? at h
  iterate 13 refine of_ite (P := (· ≠ .string s)) Token.noConfusion (fun h => ?_) h
  contradiction

/-- A string token is shorter than its characters. -/
theorem length_lt_of_cut? {cs text rest : List Char} {s : String}
    (h : cut? cs = some (.string s, text, rest)) : s.toList.length < text.length := by
  unfold cut? at h
  split at h
  · contradiction
  · simp at h
  · next cs =>
    simp only [Option.map_eq_some_iff, Prod.mk.injEq, Prod.exists, Token.string.injEq] at h
    obtain ⟨body, behind, -, rfl, rfl, -⟩ := h
    have hle := Text.Block.length_read_le body
    simp only [String.toList_ofList, List.length_append, Text.Block.quotes, List.length_cons,
      List.length_nil]
    omega
  · split at h
    · contradiction
    · next body behind _ =>
      simp only [Option.map_eq_some_iff, Prod.mk.injEq, Token.string.injEq] at h
      obtain ⟨value, hread, rfl, rfl, -⟩ := h
      have hle := Text.Quoted.length_read?_le hread
      simp only [String.toList_ofList, List.length_append, List.length_cons, List.length_nil]
      omega
  · split at h
    · next token htoken =>
      obtain ⟨rfl, -⟩ := Prod.mk.inj (Option.some.inj h)
      exact absurd rfl (ne_string_of_punctuator? htoken s)
    · split at h
      · obtain ⟨hname, -⟩ := Prod.mk.inj (Option.some.inj h)
        contradiction
      · split at h
        · simp only [Option.map_eq_some_iff, Prod.mk.injEq] at h
          obtain ⟨token, hnumber, rfl, -⟩ := h
          rcases numberToken?_cases hnumber with ⟨n, hint⟩ | ⟨x, hfloat⟩
          · contradiction
          · contradiction
        · contradiction

/-- A text that starts with a string is longer than the string. -/
theorem length_lt_of_tokens? {cs : List Char} {s : String} {behind : List Token}
    (h : tokens? cs = some (.string s :: behind)) : s.toList.length < cs.length := by
  rw [tokens?_eq] at h
  split at h
  · simp at h
  · obtain ⟨⟨token, text, after⟩, hcut, htokens⟩ := Option.bind_eq_some_iff.mp h
    obtain ⟨ts, -, hts⟩ := Option.map_eq_some_iff.mp htokens
    obtain ⟨rfl, -⟩ := List.cons.inj hts
    have hstring := length_lt_of_cut? hcut
    have hcs := congrArg List.length (splitGap_append false cs)
    have hrest := congrArg List.length (cut?_append hcut)
    simp only [List.length_append] at hcs hrest
    omega

end Lexeme

end QueryCraft
