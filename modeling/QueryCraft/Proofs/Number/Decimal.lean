import QueryCraft.Token.Lexer

/-!
The decimal text of a 64-bit number is one whole number for the lexer and reads back to the number.
-/

namespace QueryCraft.Number

theorem digit?_of_isDigit {c : Char} (h : c.isDigit = true) :
    digit? c = some (c.toNat - '0'.toNat) := by
  simp only [Char.isDigit, Bool.and_eq_true, decide_eq_true_eq] at h
  exact if_pos h

theorem digitValue_lt {c : Char} (h : c.isDigit = true) : c.toNat - '0'.toNat < 10 := by
  simp only [Char.isDigit, Bool.and_eq_true, decide_eq_true_eq] at h
  have hle : c.toNat ≤ '9'.toNat := h.2
  have hnine : '9'.toNat = '0'.toNat + 9 := by decide
  omega

theorem valueFrom?_digits (acc : Nat) {ds : List Char} (h : ∀ c ∈ ds, c.isDigit = true) :
    valueFrom? 10 acc ds = some (Nat.ofDigitChars 10 ds acc) := by
  induction ds generalizing acc with
  | nil => simp [valueFrom?]
  | cons c cs ih =>
    have hc : c.isDigit = true := h c (by simp)
    have hcs : ∀ d ∈ cs, d.isDigit = true := fun d hd => h d (by simp [hd])
    rw [valueFrom?, digit?_of_isDigit hc]
    simp only [digitValue_lt hc, if_true]
    rw [ih _ hcs, Nat.ofDigitChars_cons, Nat.mul_comm]

theorem isDigit_of_mem_natDigits {n : Nat} {c : Char} (h : c ∈ natDigits n) : c.isDigit = true :=
  Nat.isDigit_of_mem_toDigits (by decide) (by decide) h

theorem decimalValue?_natDigits (n : Nat) : decimalValue? (natDigits n) = some n := by
  have hdigits := valueFrom?_digits 0 (fun c hc => isDigit_of_mem_natDigits (n := n) hc)
  rw [natDigits, Nat.ofDigitChars_ten_toDigits] at hdigits
  unfold decimalValue? value? natDigits
  split
  · next hnil => exact absurd hnil Nat.toDigits_ne_nil
  · next c cs hcons => rw [← hcons, hdigits]

private theorem digitChar_range : ∀ n, n < 10 → 0 < n → '1' ≤ n.digitChar ∧ n.digitChar ≤ '9' := by
  decide

/-- A positive number starts with another digit than zero. -/
theorem natDigits_of_pos {n : Nat} (h : 0 < n) :
    ∃ c cs, natDigits n = c :: cs ∧ '1' ≤ c ∧ c ≤ '9' := by
  induction n using Nat.strongRecOn with
  | ind n ih =>
    by_cases hlt : n < 10
    · exact ⟨n.digitChar, [], Nat.toDigits_of_lt_base hlt, digitChar_range n hlt h⟩
    · obtain ⟨c, cs, hcs, hc⟩ := ih (n / 10) (by omega) (by omega)
      refine ⟨c, cs ++ [(n % 10).digitChar], ?_, hc⟩
      rw [natDigits, Nat.toDigits_of_base_le (by decide) (by omega)]
      rw [natDigits] at hcs
      rw [hcs, List.cons_append]

theorem isWholeUnsigned_natDigits (n : Nat) : Lexeme.isWholeUnsigned (natDigits n) = true := by
  rcases Nat.eq_zero_or_pos n with rfl | hpos
  · decide
  · obtain ⟨c, cs, hcs, hone, hnine⟩ := natDigits_of_pos hpos
    have hdigits : cs.all Char.isDigit = true :=
      List.all_eq_true.mpr fun d hd => isDigit_of_mem_natDigits (n := n) (by simp [hcs, hd])
    rw [hcs]
    unfold Lexeme.isWholeUnsigned
    split
    · next h => simp at h
    · rfl
    · next c' cs' _ heq =>
      obtain ⟨rfl, rfl⟩ := List.cons.inj heq
      simp [hone, hnine, hdigits]

/-- The text of a number is a minus or a digit and then digits. -/
theorem intDigits_cons (n : Int) :
    ∃ c cs, intDigits n = c :: cs ∧ (c = '-' ∨ c.isDigit = true) ∧ ∀ d ∈ cs, d.isDigit = true := by
  cases n with
  | ofNat n =>
    obtain ⟨c, cs, hcs⟩ := List.exists_cons_of_ne_nil (Nat.toDigits_ne_nil (n := n) (b := 10))
    have hdigits : ∀ d ∈ c :: cs, d.isDigit = true :=
      fun d hd => isDigit_of_mem_natDigits (n := n) (by rw [natDigits, hcs]; exact hd)
    exact ⟨c, cs, hcs, .inr (hdigits c (by simp)), fun d hd => hdigits d (by simp [hd])⟩
  | negSucc n =>
    exact ⟨'-', natDigits (n + 1), rfl, .inl rfl, fun d hd => isDigit_of_mem_natDigits hd⟩

private theorem natDigits_ne_cons {n : Nat} {c : Char} (h : c.isDigit = false) (cs : List Char) :
    natDigits n ≠ c :: cs := by
  intro heq
  have hdigit : c.isDigit = true := isDigit_of_mem_natDigits (n := n) (by simp [heq])
  simp [h] at hdigit

theorem isWhole_intDigits (n : Int) : Lexeme.isWhole (intDigits n) = true := by
  cases n with
  | ofNat n =>
    simp only [intDigits]
    unfold Lexeme.isWhole
    split
    · next h => exact absurd h (natDigits_ne_cons (by decide) _)
    · exact isWholeUnsigned_natDigits n
  | negSucc n => exact isWholeUnsigned_natDigits (n + 1)

theorem signedValue?_intDigits (n : Int) : signedValue? (intDigits n) = some n := by
  cases n with
  | ofNat n =>
    simp only [intDigits]
    unfold signedValue?
    split
    · next h => exact absurd h (natDigits_ne_cons (by decide) _)
    · next h => exact absurd h (natDigits_ne_cons (by decide) _)
    · rw [decimalValue?_natDigits]
      rfl
  | negSucc n =>
    simp only [intDigits, signedValue?, decimalValue?_natDigits]
    rfl

theorem int64?_intDigits (n : Int64) : int64? (intDigits n.toInt) = some n := by
  have hlow : -0x8000000000000000 ≤ n.toInt := n.le_toInt
  have hhigh : n.toInt ≤ 0x7FFFFFFFFFFFFFFF := Int.le_of_lt_add_one n.toInt_lt
  rw [int64?, signedValue?_intDigits, Option.bind_some, if_pos ⟨hlow, hhigh⟩, Int64.ofInt_toInt]

end QueryCraft.Number
