import QueryCraft.Number.Double
import QueryCraft.Number.Digits

/-!
The shortest decimal that reads back as a given double: among the decimals with the fewest digits
that round to the double, the one nearest to it.
-/

namespace QueryCraft.Number

/-- The positive number `mantissa * 10 ^ exponent`. -/
structure Decimal where
  mantissa : Nat
  exponent : Int
  deriving DecidableEq, Repr

/-- Which of two equally near decimals is taken. -/
inductive Tie where
  | up
  | even
  deriving DecidableEq, Repr

/-- A positive double and the numbers that round to it, as fractions over one denominator. The ends
`low` and `high` belong to them if `closed`. -/
structure Neighbourhood where
  low : Nat
  middle : Nat
  high : Nat
  denominator : Nat
  closed : Bool

/-- The neighbourhood of `significand * 2 ^ exponent`, in quarters of its last place. Below a power
of two the doubles lie twice as close. -/
def Neighbourhood.ofDouble (significand : Nat) (exponent : Int) : Neighbourhood :=
  let below := if significand = fractionCount ∧ leastExponent < exponent then 1 else 2
  let (unit, denominator) : Nat × Nat :=
    match exponent - 2 with
    | .ofNat e => (Nat.pow 2 e, 1)
    | .negSucc e => (1, Nat.pow 2 (e + 1))
  { low := (4 * significand - below) * unit
    middle := 4 * significand * unit
    high := (4 * significand + 2) * unit
    denominator
    closed := significand % 2 == 0 }

/-- The fraction times a power of ten, so that a grid point `c * 10 ^ exponent` is `c * step` over
the denominator one. -/
structure Neighbourhood.OnGrid where
  low : Nat
  middle : Nat
  high : Nat
  step : Nat
  closed : Bool

def Neighbourhood.onGrid (v : Neighbourhood) (exponent : Int) : OnGrid :=
  match exponent with
  | .ofNat e => ⟨v.low, v.middle, v.high, v.denominator * Nat.pow 10 e, v.closed⟩
  | .negSucc e =>
    let t := Nat.pow 10 (e + 1)
    ⟨v.low * t, v.middle * t, v.high * t, v.denominator, v.closed⟩

def Neighbourhood.OnGrid.contains (g : OnGrid) (c : Nat) : Bool :=
  (g.low < c * g.step && c * g.step < g.high) ||
    (g.closed && (c * g.step == g.low || c * g.step == g.high))

/-- The grid point nearest to the middle among its two neighbours that round to the double. -/
def Neighbourhood.OnGrid.best? (tie : Tie) (g : OnGrid) : Option Nat :=
  let c := g.middle / g.step
  match c ≠ 0 && g.contains c, g.contains (c + 1) with
  | true, true =>
    let down := g.middle - c * g.step
    let up := (c + 1) * g.step - g.middle
    if down < up then some c
    else if up < down then some (c + 1)
    else match tie with
      | .up => some (c + 1)
      | .even => some (if c % 2 = 0 then c else c + 1)
  | true, false => some c
  | false, true => some (c + 1)
  | false, false => none

/-- The exponent of the first digit of `num / den`. -/
def leadingExponent (num den : Nat) : Int :=
  if den ≤ num then ((natDigits (num / den)).length : Int) - 1
  else
    let ceiling := (den + num - 1) / num
    if ceiling ≤ 1 then 0 else -((natDigits (ceiling - 1)).length : Int)

/-- The first hit on the grids from `exponent` downwards. -/
def Neighbourhood.search (tie : Tie) (v : Neighbourhood) : Nat → Int → Decimal
  | 0, exponent => ⟨v.middle / v.denominator, exponent⟩
  | grids + 1, exponent =>
    match (v.onGrid exponent).best? tie with
    | some c => ⟨c, exponent⟩
    | none => search tie v grids (exponent - 1)

/-- Moves the zeros at the end of the mantissa into the exponent. -/
def Decimal.normalize (d : Decimal) : Decimal :=
  let ds := (natDigits d.mantissa).reverse
  let zeros := (ds.takeWhile (· == '0')).length
  ⟨d.mantissa / Nat.pow 10 zeros, d.exponent + zeros⟩

/-- Seventeen digits always tell a double from its neighbours, and one more grid is never reached.
-/
def shortest (tie : Tie) (significand : Nat) (exponent : Int) : Decimal :=
  let v := Neighbourhood.ofDouble significand exponent
  (v.search tie 18 (leadingExponent v.middle v.denominator)).normalize

end QueryCraft.Number
