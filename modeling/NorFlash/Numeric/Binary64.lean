namespace NorFlash

/-- The number `mantissa * 2 ^ exponent`. -/
structure Binary64 where
  mantissa : Nat
  exponent : Int
  deriving DecidableEq, Repr

namespace Binary64

/-- The smallest exponent. -/
def leastExponent : Int := -1074

/-- Digits of the mantissa after the first. -/
def fractionDigits : Int := 52

/-- `2 ^ e`, or one where `e` is negative. -/
def power (e : Int) : Nat := Nat.pow 2 e.toNat

/-- The quotient rounded to the nearest whole number, a half to the even one. -/
def roundToEven (num den : Nat) : Nat :=
  let q := num / den
  let r := num % den
  if 2 * r < den then q
  else if den < 2 * r then q + 1
  else q + q % 2

/-- The power of two at or below a quotient that is not zero. -/
def floorLog (num den : Nat) : Int :=
  let k : Int := num.log2 - den.log2
  if num * power (-k) < den * power k then k - 1 else k

/-- The nearest number to `num / den`, ties to the even mantissa. The exponent has no upper end. -/
def nearest (num den : Nat) : Binary64 :=
  if num = 0 then ⟨0, 0⟩
  else
    let e := max (floorLog num den - fractionDigits) leastExponent
    ⟨roundToEven (num * power (-e)) (den * power e), e⟩

/-- The product with a whole number, rounded. -/
def scale (x : Binary64) (k : Nat) : Binary64 :=
  nearest (x.mantissa * k * power x.exponent) (power (-x.exponent))

/-- The nearest whole number, a half going up. -/
def round (x : Binary64) : Nat :=
  let den := power (-x.exponent)
  (2 * (x.mantissa * power x.exponent) + den) / (2 * den)

def isPositive (x : Binary64) : Bool := 0 < x.mantissa

end Binary64
end NorFlash
