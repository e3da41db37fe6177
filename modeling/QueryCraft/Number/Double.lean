/-!
Doubles as exact numbers: what the bits of a double stand for, and the double nearest to a fraction.
-/

namespace QueryCraft.Number

/-- What a double stands for; a finite one is `significand * 2 ^ exponent`. -/
inductive Double where
  | nan
  | infinite (negative : Bool)
  | finite (negative : Bool) (significand : Nat) (exponent : Int)
  deriving DecidableEq, Repr

/-- How many fractions there are; their bits come last. -/
def fractionCount : Nat := 0x10000000000000

/-- How many scales there are; their bits stand in front of the fraction. -/
def scaleCount : Nat := 0x800

/-- The bit of the sign. -/
def signBit : Nat := 0x8000000000000000

/-- The exponent of the least significant bit of the smallest doubles. -/
def leastExponent : Int := -1074

/-- The greatest exponent of a double whose significand has 53 bits. -/
def greatestExponent : Int := 971

def Double.ofBits (bits : Nat) : Double :=
  let negative := bits / signBit % 2 == 1
  let scale : Nat := bits / fractionCount % scaleCount
  let fraction : Nat := bits % fractionCount
  if scale + 1 = scaleCount then
    if fraction = 0 then .infinite negative else .nan
  else if scale = 0 then
    .finite negative fraction leastExponent
  else
    .finite negative (fractionCount + fraction) (scale + leastExponent - 1)

def Double.ofFloat (x : Float) : Double :=
  .ofBits x.toBits.toNat

/-- `num / den` to the nearest whole number, a half to the even one. -/
def roundHalfEven (num den : Nat) : Nat :=
  let q := num / den
  let r := num % den
  if 2 * r < den then q
  else if den < 2 * r then q + 1
  else if q % 2 = 0 then q else q + 1

/-- Numerator and denominator of `num / den / 2 ^ exponent`. -/
def scaleDown (num den : Nat) (exponent : Int) : Nat × Nat :=
  match exponent with
  | .ofNat e => (num, den * Nat.pow 2 e)
  | .negSucc e => (num * Nat.pow 2 (e + 1), den)

/-- The exponent at which `num / den` has 53 bits in front of the binary point, or the least one. -/
def exponentFor (num den : Nat) : Int :=
  let guess : Int := (num.log2 : Int) - (den.log2 : Int) - 53
  let (n, d) := scaleDown num den guess
  max (if 2 * fractionCount ≤ n / d then guess + 1 else guess) leastExponent

def infinityBits : Nat :=
  (scaleCount - 1) * fractionCount

/-- The bits of the double nearest to `num / den`; too large a fraction goes to infinity. -/
def nearestBits (num den : Nat) : Nat :=
  if num = 0 then 0
  else
    let exponent := exponentFor num den
    let (n, d) := scaleDown num den exponent
    let m := roundHalfEven n d
    let (m, exponent) := if m = 2 * fractionCount then (fractionCount, exponent + 1) else (m, exponent)
    if greatestExponent < exponent then infinityBits
    else if m < fractionCount then m
    else (exponent - leastExponent + 1).toNat * fractionCount + (m - fractionCount)

/-- The double of either sign with the given other bits. -/
def signed (negative : Bool) (bits : Nat) : Float :=
  Float.ofBits (UInt64.ofNat ((if negative then signBit else 0) + bits))

def infinity (negative : Bool) : Float :=
  signed negative infinityBits

def nearest (negative : Bool) (num den : Nat) : Float :=
  signed negative (nearestBits num den)

end QueryCraft.Number
