import QueryCraft.Number.FloatText
import QueryCraft.Proofs.Token.Scanning

/-!
The text of a double never runs into what follows it: it is one numeral, or one of the names that
stand for what is no finite number.
-/

namespace QueryCraft.Number

open Lexeme (endsNumber IsNumeral)

theorem endsNumber_of_isDigit {c : Char} (h : c.isDigit = true) : endsNumber c = false :=
  Lexeme.endsNumber_of_isNamePart (Lexeme.isNamePart_of_isDigit h)

/-- A digit, and behind it nothing that ends a number. -/
def IsUnsigned (text : List Char) : Prop :=
  (∃ c cs, text = c :: cs ∧ c.isDigit = true) ∧ ∀ d ∈ text, endsNumber d = false

theorem IsUnsigned.append {text more : List Char} (h : IsUnsigned text)
    (hmore : ∀ d ∈ more, endsNumber d = false) : IsUnsigned (text ++ more) := by
  obtain ⟨⟨c, cs, rfl, hc⟩, hends⟩ := h
  exact ⟨⟨c, cs ++ more, rfl, hc⟩, List.forall_mem_append.mpr ⟨hends, hmore⟩⟩

theorem isUnsigned_of_digits {ds : List Char} (hne : ds ≠ []) (h : ∀ c ∈ ds, c.isDigit = true) :
    IsUnsigned ds := by
  obtain ⟨c, cs, rfl⟩ := List.exists_cons_of_ne_nil hne
  exact ⟨⟨c, cs, rfl, h c List.mem_cons_self⟩, fun d hd => endsNumber_of_isDigit (h d hd)⟩

theorem IsUnsigned.isNumeral {text : List Char} (h : IsUnsigned text) (negative : Bool) :
    IsNumeral (if negative then '-' :: text else text) := by
  cases negative with
  | true => exact ⟨'-', text, rfl, .inl rfl, h.2⟩
  | false =>
    obtain ⟨⟨c, cs, rfl, hc⟩, hends⟩ := h
    exact ⟨c, cs, rfl, .inr hc, fun d hd => hends d (List.mem_cons_of_mem c hd)⟩

theorem endsNumber_of_all {text : List Char} (h : text.all (fun c => !endsNumber c) = true) :
    ∀ c ∈ text, endsNumber c = false := by
  simpa using h

theorem isDigit_of_mem_zeros {n : Nat} {c : Char} (h : c ∈ zeros n) : c.isDigit = true := by
  rw [List.eq_of_mem_replicate h]
  rfl

theorem isUnsigned_positional {ds : List Char} (hne : ds ≠ []) (h : ∀ c ∈ ds, c.isDigit = true)
    (keepsPoint : Bool) (point : Int) : IsUnsigned (positional keepsPoint ds point) := by
  have hends : ∀ c ∈ ds, endsNumber c = false := fun c hc => endsNumber_of_isDigit (h c hc)
  have hzeros (n : Nat) : ∀ c ∈ zeros n, endsNumber c = false :=
    fun c hc => endsNumber_of_isDigit (isDigit_of_mem_zeros hc)
  unfold positional
  split
  · have hzero : IsUnsigned ['0', '.'] := ⟨⟨'0', ['.'], rfl, rfl⟩, endsNumber_of_all rfl⟩
    exact hzero.append (List.forall_mem_append.mpr ⟨hzeros _, hends⟩)
  · next hpoint =>
    split
    · have htake : IsUnsigned (ds.take point.toNat) := by
        refine isUnsigned_of_digits ?_ fun c hc => h c (List.mem_of_mem_take hc)
        rw [Ne, List.take_eq_nil_iff]
        rintro (hzero | hnil)
        · omega
        · exact hne hnil
      have hdrop : ∀ c ∈ ds.drop point.toNat, endsNumber c = false :=
        fun c hc => hends c (List.mem_of_mem_drop hc)
      exact htake.append (List.forall_mem_cons.mpr ⟨rfl, hdrop⟩)
    · refine ((isUnsigned_of_digits hne h).append (hzeros _)).append ?_
      cases keepsPoint <;> exact endsNumber_of_all rfl

theorem endsNumber_of_mem_exponentDigits {signs : Bool} {exponent : Int} :
    ∀ c ∈ exponentDigits signs exponent, endsNumber c = false := by
  have hdigits : ∀ c ∈ intDigits exponent, endsNumber c = false := by
    obtain ⟨c, cs, hcs, hc, hdigits⟩ := intDigits_cons exponent
    rw [hcs, List.forall_mem_cons]
    refine ⟨?_, fun d hd => endsNumber_of_isDigit (hdigits d hd)⟩
    rcases hc with rfl | hc
    · rfl
    · exact endsNumber_of_isDigit hc
  unfold exponentDigits
  split
  · exact List.forall_mem_cons.mpr ⟨rfl, hdigits⟩
  · exact hdigits

theorem isUnsigned_scientific {ds : List Char} (hne : ds ≠ []) (h : ∀ c ∈ ds, c.isDigit = true)
    (signs : Bool) (point : Int) : IsUnsigned (scientific signs ds point) := by
  have htail : ∀ c ∈ 'e' :: exponentDigits signs (point - 1), endsNumber c = false :=
    List.forall_mem_cons.mpr ⟨rfl, endsNumber_of_mem_exponentDigits⟩
  unfold scientific
  split
  · next d e rest =>
    have hpoint : IsUnsigned [d, '.'] := by
      have hd : d.isDigit = true := h d List.mem_cons_self
      exact ⟨⟨d, ['.'], rfl, hd⟩, by simp [endsNumber_of_isDigit hd]; rfl⟩
    refine hpoint.append (List.forall_mem_cons.mpr ⟨?_, List.forall_mem_append.mpr ⟨?_, htail⟩⟩)
    · exact endsNumber_of_isDigit (h e (by simp))
    · exact fun c hc => endsNumber_of_isDigit (h c (by simp [hc]))
  · exact (isUnsigned_of_digits hne h).append htail

theorem isUnsigned_decimal (style : FloatStyle) (d : Decimal) : IsUnsigned (style.decimal d) := by
  have hne : natDigits d.mantissa ≠ [] := Nat.toDigits_ne_nil
  have hdigits : ∀ c ∈ natDigits d.mantissa, c.isDigit = true :=
    fun c hc => isDigit_of_mem_natDigits hc
  unfold FloatStyle.decimal
  simp only
  split
  · exact isUnsigned_positional hne hdigits _ _
  · exact isUnsigned_scientific hne hdigits _ _

/-- The text of a double is `NaN`, `inf` or a numeral. -/
theorem FloatStyle.write_cases (style : FloatStyle) (x : Float) :
    style.write x = "NaN".toList ∨ style.write x = "inf".toList ∨ IsNumeral (style.write x) := by
  unfold FloatStyle.write
  cases Double.ofFloat x with
  | nan => exact .inl rfl
  | infinite negative =>
    cases negative with
    | false => exact .inr (.inl rfl)
    | true => exact .inr (.inr ⟨'-', "inf".toList, rfl, .inl rfl, endsNumber_of_all rfl⟩)
  | finite negative significand exponent =>
    cases significand with
    | zero =>
      have hzero : IsUnsigned ('0' :: (if style.keepsPoint then ['.', '0'] else [])) := by
        cases style.keepsPoint with
        | false => exact ⟨⟨'0', [], rfl, rfl⟩, endsNumber_of_all rfl⟩
        | true => exact ⟨⟨'0', ['.', '0'], rfl, rfl⟩, endsNumber_of_all rfl⟩
      exact .inr (.inr (hzero.isNumeral negative))
    | succ m => exact .inr (.inr ((isUnsigned_decimal style _).isNumeral negative))

end QueryCraft.Number
