import QueryCraft.Token.Lexer

/-!
A text between quotes is read back as it was written. The exception is U+0008, which is written `\b`
and read as U+0010.
-/

namespace QueryCraft.Text.Quoted

private theorem upperHexDigit_digit : ∀ n, n < 16 →
    Number.digit? (Number.upperHexDigit n) = some n ∧ Number.upperHexDigit n ≠ '"' ∧
      Number.upperHexDigit n ≠ '\\' ∧ Number.upperHexDigit n ≠ '\n' ∧
        Number.upperHexDigit n ≠ '+' := by
  decide

theorem codeOf?_hexQuad {n : Nat} (h : n < 65536) : codeOf? (Number.hexQuad n) = some n := by
  obtain ⟨hd3, -, -, -, hplus⟩ := upperHexDigit_digit (n / 4096 % 16) (by omega)
  obtain ⟨hd2, -⟩ := upperHexDigit_digit (n / 256 % 16) (by omega)
  obtain ⟨hd1, -⟩ := upperHexDigit_digit (n / 16 % 16) (by omega)
  obtain ⟨hd0, -⟩ := upperHexDigit_digit (n % 16) (by omega)
  have hvalue :
      (((0 * 16 + n / 4096 % 16) * 16 + n / 256 % 16) * 16 + n / 16 % 16) * 16 + n % 16 = n := by
    omega
  have h3 : n / 4096 % 16 < 16 := by omega
  have h2 : n / 256 % 16 < 16 := by omega
  have h1 : n / 16 % 16 < 16 := by omega
  have h0 : n % 16 < 16 := by omega
  unfold codeOf? Number.hexQuad
  split
  · next ds heq =>
    simp only [List.cons.injEq] at heq
    exact absurd heq.1 hplus
  · simp only [Number.hexValue?, Number.value?, Number.valueFrom?, hd3, hd2, hd1, hd0, h3, h2, h1,
      h0, if_true, hvalue]

/-- The character that the written form of a character is read as. -/
def reread (c : Char) : Char :=
  if c = '\x08' then '\x10' else c

/-- A character is written as a pair, as its number, or as itself. -/
theorem escape_cases (c : Char) :
    (∃ e, escape c = ['\\', e] ∧ e ≠ '\n' ∧ e ≠ 'u' ∧ simpleEscape? e = some (reread c)) ∨
      (escape c = '\\' :: 'u' :: Number.hexQuad c.toNat ∧ c.toNat < 65536 ∧ reread c = c) ∨
      (escape c = [c] ∧ c ≠ '"' ∧ c ≠ '\\' ∧ c ≠ '\n' ∧ reread c = c) := by
  unfold escape
  split
  · next h => exact .inl ⟨'"', rfl, by decide, by decide, by subst h; decide⟩
  split
  · next h => exact .inl ⟨'\\', rfl, by decide, by decide, by subst h; decide⟩
  split
  · next h => exact .inl ⟨'n', rfl, by decide, by decide, by subst h; decide⟩
  split
  · next h => exact .inl ⟨'r', rfl, by decide, by decide, by subst h; decide⟩
  split
  · next h => exact .inl ⟨'t', rfl, by decide, by decide, by subst h; decide⟩
  split
  · next h => exact .inl ⟨'b', rfl, by decide, by decide, by subst h; decide⟩
  split
  · next h => exact .inl ⟨'f', rfl, by decide, by decide, by subst h; decide⟩
  next hquote hslash hline _ _ hback _ =>
  have hsame : reread c = c := if_neg hback
  split
  · next h =>
    simp only [isControl, Bool.or_eq_true, Bool.and_eq_true, decide_eq_true_eq] at h
    exact .inr (.inl ⟨rfl, by omega, hsame⟩)
  · exact .inr (.inr ⟨rfl, hquote, hslash, hline, hsame⟩)

private theorem splitQuoted_pair {e : Char} (rest : List Char) (hline : e ≠ '\n') :
    Lexeme.splitQuoted ('\\' :: e :: rest) =
      (Lexeme.splitQuoted rest).map fun (body, after) => ('\\' :: e :: body, after) := by
  rw [Lexeme.splitQuoted, if_neg hline]

private theorem splitQuoted_plain {c : Char} (rest : List Char) (hquote : c ≠ '"')
    (hslash : c ≠ '\\') (hline : c ≠ '\n') :
    Lexeme.splitQuoted (c :: rest) =
      (Lexeme.splitQuoted rest).map fun (body, after) => (c :: body, after) := by
  rw [Lexeme.splitQuoted, if_neg hline]
  · exact hquote
  · intro _ _ h _
    exact hslash h

/-- The search for the closing quote passes over the written form of a character. -/
theorem splitQuoted_escape (c : Char) (rest : List Char) :
    Lexeme.splitQuoted (escape c ++ rest) =
      (Lexeme.splitQuoted rest).map fun (body, after) => (escape c ++ body, after) := by
  rcases escape_cases c with ⟨e, he, hline, -, -⟩ | ⟨he, -⟩ | ⟨he, hquote, hslash, hline, -⟩
  · rw [he, List.cons_append, List.cons_append, List.nil_append, splitQuoted_pair rest hline]
    rfl
  · obtain ⟨-, hq3, hs3, hl3, -⟩ := upperHexDigit_digit (c.toNat / 4096 % 16) (by omega)
    obtain ⟨-, hq2, hs2, hl2, -⟩ := upperHexDigit_digit (c.toNat / 256 % 16) (by omega)
    obtain ⟨-, hq1, hs1, hl1, -⟩ := upperHexDigit_digit (c.toNat / 16 % 16) (by omega)
    obtain ⟨-, hq0, hs0, hl0, -⟩ := upperHexDigit_digit (c.toNat % 16) (by omega)
    simp only [he, Number.hexQuad, List.cons_append, List.nil_append]
    rw [splitQuoted_pair _ (by decide), splitQuoted_plain _ hq3 hs3 hl3,
      splitQuoted_plain _ hq2 hs2 hl2, splitQuoted_plain _ hq1 hs1 hl1,
      splitQuoted_plain _ hq0 hs0 hl0]
    simp only [Option.map_map]
    rfl
  · rw [he]
    exact splitQuoted_plain rest hquote hslash hline

/-- What stands between the quotes of a written text ends at the closing quote. -/
theorem splitQuoted_write (text rest : List Char) :
    Lexeme.splitQuoted (text.flatMap escape ++ '"' :: rest) = some (text.flatMap escape, rest) := by
  induction text with
  | nil => rfl
  | cons c cs ih =>
    simp only [List.flatMap_cons, List.append_assoc]
    rw [splitQuoted_escape, ih]
    rfl

private theorem read?_pair {e : Char} (rest : List Char) (hu : e ≠ 'u') :
    read? ('\\' :: e :: rest) =
      (simpleEscape? e).bind fun c => (read? rest).map (c :: ·) := by
  rw [read?]
  · cases simpleEscape? e <;> cases read? rest <;> rfl
  · intro _ _ _ _ _ h _
    exact hu h

private theorem read?_plain {c : Char} (rest : List Char) (hslash : c ≠ '\\') :
    read? (c :: rest) = (read? rest).map (c :: ·) := by
  rw [read?]
  · cases read? rest <;> rfl
  all_goals
    intros
    exact hslash ‹_›

/-- Each written character is read by itself. -/
theorem read?_escape (c : Char) (rest : List Char) :
    read? (escape c ++ rest) = (read? rest).map (reread c :: ·) := by
  rcases escape_cases c with ⟨e, he, -, hu, hsimple⟩ | ⟨he, hcode, hsame⟩ | ⟨he, -, hslash, -, hsame⟩
  · rw [he, List.cons_append, List.cons_append, List.nil_append, read?_pair rest hu, hsimple]
    rfl
  · have hread := codeOf?_hexQuad hcode
    have hvalid : c.toNat.isValidChar := c.valid
    rw [he, hsame]
    simp only [Number.hexQuad, List.cons_append, List.nil_append] at hread ⊢
    rw [read?, hread]
    simp only [Option.bind_eq_bind, Option.bind_some, if_pos hvalid, Char.ofNat_toNat]
    cases read? rest <;> rfl
  · rw [he, hsame, List.cons_append, List.nil_append, read?_plain rest hslash]

/-- Every written text is read, character by character. -/
theorem read?_write (text : List Char) :
    read? (text.flatMap escape) = some (text.map reread) := by
  induction text with
  | nil => rfl
  | cons c cs ih =>
    rw [List.flatMap_cons, read?_escape, ih]
    rfl

/-- A text reads back exactly if it is one without U+0008. -/
theorem map_reread_eq_self_iff {text : List Char} : text.map reread = text ↔ '\x08' ∉ text := by
  constructor
  · intro h hmem
    rw [← h] at hmem
    obtain ⟨c, -, hc⟩ := List.mem_map.mp hmem
    unfold reread at hc
    split at hc
    · exact absurd hc (by decide)
    · next hne => exact hne hc
  · intro h
    exact (List.map_congr_left fun c hc => if_neg (ne_of_mem_of_not_mem hc h)).trans
      (List.map_id text)

end QueryCraft.Text.Quoted
