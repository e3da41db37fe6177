import QueryCraft.Number.Double
import QueryCraft.Number.Digits

/-!
Reading a double from decimal text: the nearest double, a tie to the even one.
-/

namespace QueryCraft.Number

/-- The parts of decimal text: digits in front of and behind the point, and a power of ten. -/
structure DecimalText where
  whole : List Char
  fraction : List Char
  exponent : Int

/-- A sign and what follows it. -/
def splitSign : List Char → Bool × List Char
  | '-' :: cs => (true, cs)
  | '+' :: cs => (false, cs)
  | cs => (false, cs)

/-- The power of ten behind the digits: nothing, or `e`, an optional sign and digits. -/
def exponent? : List Char → Option Int
  | [] => some 0
  | c :: cs =>
    if c = 'e' ∨ c = 'E' then
      let (negative, ds) := splitSign cs
      (decimalValue? ds).map fun n => if negative then -(n : Int) else n
    else
      none

/-- Digits with an optional point among them, at least one digit in all, and an optional exponent.
-/
def DecimalText.read? (cs : List Char) : Option DecimalText := do
  let whole := cs.takeWhile Char.isDigit
  let rest := cs.dropWhile Char.isDigit
  let (fraction, rest) := match rest with
    | '.' :: r => (r.takeWhile Char.isDigit, r.dropWhile Char.isDigit)
    | r => ([], r)
  if whole.isEmpty && fraction.isEmpty then none
  else
    let exponent ← exponent? rest
    some ⟨whole, fraction, exponent⟩

/-- Far outside the range of doubles the exact value no longer matters, so powers of ten stay
small. -/
def DecimalText.toFloat (negative : Bool) (t : DecimalText) : Float :=
  let m := (valueFrom? 10 0 (t.whole ++ t.fraction)).getD 0
  let exponent := t.exponent - t.fraction.length
  let point := ((natDigits m).length : Int) + exponent
  if m = 0 ∨ point < -400 then signed negative 0
  else if 400 < point then infinity negative
  else match exponent with
    | .ofNat e => nearest negative (m * Nat.pow 10 e) 1
    | .negSucc e => nearest negative m (Nat.pow 10 (e + 1))

/-- A double from text: an optional sign, then a decimal or, in any case, `inf`, `infinity` or
`nan`. -/
def float? (cs : List Char) : Option Float :=
  let (negative, body) := splitSign cs
  let lower := body.map Char.toLower
  if lower = "inf".toList ∨ lower = "infinity".toList then
    some (infinity negative)
  else if lower = "nan".toList then
    some (Float.ofBits 0x7FF8000000000000)
  else
    (DecimalText.read? body).map (DecimalText.toFloat negative)

end QueryCraft.Number
