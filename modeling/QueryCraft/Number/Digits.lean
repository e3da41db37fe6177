/-!
Digits: reading and writing whole numbers in base ten and sixteen.
-/

namespace QueryCraft.Number

/-- The value of a digit in bases up to sixteen. -/
def digit? (c : Char) : Option Nat :=
  if '0' ≤ c ∧ c ≤ '9' then some (c.toNat - '0'.toNat)
  else if 'a' ≤ c ∧ c ≤ 'f' then some (c.toNat - 'a'.toNat + 10)
  else if 'A' ≤ c ∧ c ≤ 'F' then some (c.toNat - 'A'.toNat + 10)
  else none

/-- The value of `ds` behind a number of value `acc`; none if one of them is no digit below `base`.
-/
def valueFrom? (base acc : Nat) : List Char → Option Nat
  | [] => some acc
  | c :: cs =>
    match digit? c with
    | some d => if d < base then valueFrom? base (acc * base + d) cs else none
    | none => none

/-- The value of one or more digits. -/
def value? (base : Nat) : List Char → Option Nat
  | [] => none
  | c :: cs => valueFrom? base 0 (c :: cs)

def decimalValue? (ds : List Char) : Option Nat :=
  value? 10 ds

def hexValue? (ds : List Char) : Option Nat :=
  value? 16 ds

def natDigits (n : Nat) : List Char :=
  Nat.toDigits 10 n

def intDigits : Int → List Char
  | .ofNat n => natDigits n
  | .negSucc n => '-' :: natDigits (n + 1)

def upperHexDigit (n : Nat) : Char :=
  if n < 10 then Char.ofNat ('0'.toNat + n) else Char.ofNat ('A'.toNat + (n - 10))

/-- The last four hexadecimal digits of a number, in upper case. -/
def hexQuad (n : Nat) : List Char :=
  [upperHexDigit (n / 4096 % 16), upperHexDigit (n / 256 % 16), upperHexDigit (n / 16 % 16),
    upperHexDigit (n % 16)]

/-- The whole number that digits behind an optional sign stand for. -/
def signedValue? : List Char → Option Int
  | '-' :: ds => (decimalValue? ds).map fun n => -Int.ofNat n
  | '+' :: ds => (decimalValue? ds).map Int.ofNat
  | ds => (decimalValue? ds).map Int.ofNat

/-- The whole number that fits 64 bits with sign, if the text is an optional sign and digits. -/
def int64? (cs : List Char) : Option Int64 :=
  (signedValue? cs).bind fun n =>
    if -0x8000000000000000 ≤ n ∧ n ≤ 0x7FFFFFFFFFFFFFFF then some (Int64.ofInt n) else none

/-- The whole number that fits 64 bits without sign, if the text is digits behind an optional plus.
-/
def word64? (cs : List Char) : Option Nat := do
  let n ← match cs with
    | '+' :: ds => decimalValue? ds
    | ds => decimalValue? ds
  if n < UInt64.size then some n else none

end QueryCraft.Number
