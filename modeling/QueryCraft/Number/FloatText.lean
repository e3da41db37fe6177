import QueryCraft.Number.Shortest

/-!
The text of a double: its shortest decimal, written positionally or with an exponent as a style
says.
-/

namespace QueryCraft.Number

/-- How doubles are written. The point of `0.d₁d₂…dₙ * 10 ^ point` decides between the notations. -/
structure FloatStyle where
  /-- Least point written without an exponent; `none` if an exponent is never written. -/
  leastPoint : Option Int
  /-- Greatest point written without an exponent; `none` if an exponent is never written. -/
  greatestPoint : Option Int
  /-- Whole numbers end in `.0`. -/
  keepsPoint : Bool
  /-- Positive exponents have a plus sign. -/
  signsExponent : Bool
  tie : Tie

def FloatStyle.isPositional (style : FloatStyle) (point : Int) : Bool :=
  style.leastPoint.all (fun p => decide (p ≤ point)) &&
    style.greatestPoint.all (fun p => decide (point ≤ p))

def zeros (n : Nat) : List Char :=
  List.replicate n '0'

def positional (keepsPoint : Bool) (ds : List Char) (point : Int) : List Char :=
  if point ≤ 0 then '0' :: '.' :: (zeros (-point).toNat ++ ds)
  else if point < ds.length then ds.take point.toNat ++ '.' :: ds.drop point.toNat
  else ds ++ zeros (point - ds.length).toNat ++ (if keepsPoint then ['.', '0'] else [])

def exponentDigits (signs : Bool) (exponent : Int) : List Char :=
  if signs && 0 < exponent then '+' :: intDigits exponent else intDigits exponent

def scientific (signs : Bool) (ds : List Char) (point : Int) : List Char :=
  let tail := 'e' :: exponentDigits signs (point - 1)
  match ds with
  | d :: e :: rest => d :: '.' :: e :: (rest ++ tail)
  | ds => ds ++ tail

def FloatStyle.decimal (style : FloatStyle) (d : Decimal) : List Char :=
  let ds := natDigits d.mantissa
  let point := (ds.length : Int) + d.exponent
  if style.isPositional point then positional style.keepsPoint ds point
  else scientific style.signsExponent ds point

def FloatStyle.write (style : FloatStyle) (x : Float) : List Char :=
  let signed (negative : Bool) (cs : List Char) := if negative then '-' :: cs else cs
  match Double.ofFloat x with
  | .nan => ['N', 'a', 'N']
  | .infinite negative => signed negative ['i', 'n', 'f']
  | .finite negative 0 _ => signed negative ('0' :: (if style.keepsPoint then ['.', '0'] else []))
  | .finite negative m e => signed negative (style.decimal (shortest style.tie m e))

/-- Values of a document: positional from 0.0001 up to 10^16. -/
def FloatStyle.value : FloatStyle := ⟨some (-3), some 16, true, false, .up⟩

/-- Nodes kept verbatim: always positional, a whole number without a point. -/
def FloatStyle.plain : FloatStyle := ⟨none, none, false, false, .up⟩

/-- JSON: positional from 0.00001 up to 10^16, and else with a sign on the exponent. -/
def FloatStyle.json : FloatStyle := ⟨some (-4), some 16, true, true, .even⟩

end QueryCraft.Number
