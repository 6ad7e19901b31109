/-! # Binary fractions of double precision

    A decimal number is rounded to the nearest number `m * 2 ^ e` with `m < 2 ^ 53` and
    `-1074 ≤ e`; a number half way between two goes to the one with even `m`. What is then not
    below `2 ^ 1024` is too large.
-/

namespace ClassAudit

/-- The number `mantissa * 10 ^ exponent`, with a sign. -/
structure Decimal where
  negative : Bool
  mantissa : Nat
  exponent : Int

/-- The number `mantissa * 2 ^ exponent`, with a sign. -/
structure Double where
  negative : Bool
  mantissa : Nat
  exponent : Int

namespace Double

/-- The quotient rounded to the nearest whole number, a half to the even one. -/
def roundDiv (n d : Nat) : Nat :=
  let q := n / d
  let r := n % d
  if d < 2 * r ∨ (2 * r = d ∧ q % 2 = 1) then q + 1 else q

def ofQuotient (negative : Bool) (n d : Nat) : Double :=
  let e : Int := max (-1074) ((n.log2 : Int) - d.log2 - 52)
  let scaled (e : Int) : Nat :=
    if 0 ≤ e then roundDiv n (d <<< e.toNat) else roundDiv (n <<< (-e).toNat) d
  -- the quotient of the leading bits may be one off
  let e := if n <<< (-e).toNat < d <<< (52 + e.toNat) ∧ -1074 < e then e - 1 else e
  ⟨negative, scaled e, e⟩

/-- Whether a double is below `2 ^ 1024`. -/
def isFinite (x : Double) : Bool :=
  x.mantissa = 0 || (x.mantissa.log2 : Int) + x.exponent < 1024

/-- The nearest double to a decimal number, if it is not too large. Numbers that are far too large
    or too small are told by their number of digits. -/
def ofDecimal? (x : Decimal) : Option Double :=
  let digits : Int := (Nat.toDigits 10 x.mantissa).length + x.exponent
  if x.mantissa = 0 ∨ digits < -330 then some ⟨x.negative, 0, 0⟩
  else if 400 < digits then none
  else
    let y :=
      if 0 ≤ x.exponent then ofQuotient x.negative (x.mantissa * Nat.pow 10 x.exponent.toNat) 1
      else ofQuotient x.negative x.mantissa (Nat.pow 10 (-x.exponent).toNat)
    if y.isFinite then some y else none

def ofInt (n : Int) : Double :=
  if n = 0 then ⟨false, 0, 0⟩ else ofQuotient (n < 0) n.natAbs 1

/-- Whether two doubles are the same number. Zero has no sign in this. -/
def equals (x y : Double) : Bool :=
  let e := min x.exponent y.exponent
  let scaled (z : Double) : Nat := z.mantissa <<< (z.exponent - e).toNat
  scaled x == scaled y && (x.mantissa == 0 || x.negative == y.negative)

def truncate (x : Double) : Int :=
  let n : Nat :=
    if 0 ≤ x.exponent then x.mantissa <<< x.exponent.toNat
    else x.mantissa >>> (-x.exponent).toNat
  if x.negative then -(n : Int) else n

end Double

end ClassAudit
