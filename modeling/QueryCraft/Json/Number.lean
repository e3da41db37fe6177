import QueryCraft.Json
import QueryCraft.Number.Read

/-!
Numbers of JSON as whole numbers and as doubles. A double comes from a significand of at most 64
bits that is scaled once by a power of ten; further digits are dropped.
-/

namespace QueryCraft.Json

/-- A significand and the power of ten to scale it by. -/
structure Scaled where
  significand : Nat
  exponent : Int

/-- Appends the digits of the whole part. From the first on that does not fit they only count. -/
def Scaled.appendWhole : Bool → Scaled → List Char → Scaled
  | _, s, [] => s
  | full, s, c :: cs =>
    let grown := s.significand * 10 + (Number.digit? c).getD 0
    if full || UInt64.size ≤ grown then appendWhole true ⟨s.significand, s.exponent + 1⟩ cs
    else appendWhole false ⟨grown, s.exponent⟩ cs

/-- Appends the digits behind the point, up to the first that does not fit. -/
def Scaled.appendFraction : Scaled → List Char → Scaled
  | s, [] => s
  | s, c :: cs =>
    let grown := s.significand * 10 + (Number.digit? c).getD 0
    if UInt64.size ≤ grown then s else appendFraction ⟨grown, s.exponent - 1⟩ cs

def power (n : Nat) : Float :=
  Number.nearest false (Nat.pow 10 n) 1

/-- Divides by powers of ten that a double can hold, until nothing is left of the number. -/
def divide : Nat → Float → Nat → Float
  | 0, x, _ => x
  | steps + 1, x, n =>
    if n ≤ 308 then x / power n
    else if x == 0 then x
    else divide steps (x / power 308) (n - 308)

/-- The double for a scaled significand; none if it is too large. Three divisions by 10^308 leave
nothing of 64 bits. -/
def Scaled.toFloat? (s : Scaled) : Option Float :=
  let x := (UInt64.ofNat s.significand).toFloat
  match s.exponent with
  | .ofNat n =>
    if n ≤ 308 then
      let y := x * power n
      if y.isInf then none else some y
    else if s.significand = 0 then some x
    else none
  | .negSucc n => some (divide 4 x (n + 1))

/-- The exponent part of a number, without its mark. -/
def exponentOf (cs : List Char) : Bool × Nat :=
  let (negative, ds) := Number.splitSign cs
  (negative, (Number.valueFrom? 10 0 ds).getD 0)

/-- The double for the text of a number without its sign. -/
def unsignedFloat? (cs : List Char) : Option Float :=
  let whole := cs.takeWhile Char.isDigit
  let rest := cs.dropWhile Char.isDigit
  let s := Scaled.appendWhole false ⟨0, 0⟩ whole
  let (s, rest) := match rest with
    | '.' :: rest => (s.appendFraction (rest.takeWhile Char.isDigit), rest.dropWhile Char.isDigit)
    | rest => (s, rest)
  match rest with
  | [] => s.toFloat?
  | _ :: mark =>
    let (negative, n) := exponentOf mark
    if n < 0x80000000 then
      Scaled.toFloat? ⟨s.significand, if negative then s.exponent - n else s.exponent + n⟩
    else if negative || s.significand == 0 then some 0
    else none

def toFloat? : Json → Option Float
  | .number text =>
    match text.toList with
    | '-' :: cs => (unsignedFloat? cs).map fun x => -x
    | cs => unsignedFloat? cs
  | _ => none

/-- A whole number without point and exponent; minus zero is none. -/
def toInt64? : Json → Option Int64
  | .number text => if text = "-0" then none else Number.int64? text.toList
  | _ => none

def toNat? : Json → Option Nat
  | .number text => Number.decimalValue? text.toList
  | _ => none

end QueryCraft.Json
