/-!
Floating-point numbers of 64 bits, and the number of this kind that is nearest to a decimal. The
rounding is exact: it works on quotients of natural numbers.
-/

namespace DocAnnotations

/-- A floating-point number by its bits: sign, eleven bits of exponent, 52 bits of fraction. -/
structure Binary64 where
  bits : UInt64
  deriving DecidableEq, Repr, Inhabited

namespace Binary64

/-- The bit of the sign. -/
def signBit : Nat := 0x8000000000000000

/-- The lowest bit of the exponent. Fractions are smaller. -/
def exponentBit : Nat := 0x10000000000000

/-- The bits of positive infinity, above those of every positive finite number. -/
def infinityBits : Nat := 0x7ff0000000000000

/-- The number with the given sign and the given bits below the sign. -/
def ofMagnitude (negative : Bool) (magnitude : Nat) : Binary64 :=
  ⟨UInt64.ofNat (magnitude + if negative then signBit else 0)⟩

/-- The whole number nearest to `num / den`, of two the even one. -/
def roundHalfEven (num den : Nat) : Nat :=
  let q := num / den
  let r := num % den
  if 2 * r < den ∨ (2 * r = den ∧ q % 2 = 0) then q else q + 1

/-- The greatest `k` with `2 ^ k ≤ num / den`. -/
def binaryOrder (num den : Nat) : Int :=
  let k : Int := (num.log2 : Int) - den.log2
  if den <<< k.toNat ≤ num <<< (-k).toNat then k else k - 1

/-- The bits, sign apart, of the number nearest to `num / den`. With the last place `2 ^ q` the
rounded significand and the exponent add up, also where rounding carries into the exponent. -/
def magnitudeOfRatio (num den : Nat) : Nat :=
  let q := max (binaryOrder num den - 52) (-1074)
  let significand := roundHalfEven (num <<< (-q).toNat) (den <<< q.toNat)
  min (significand + (q + 1074).toNat * exponentBit) infinityBits

/-- The number nearest to `±digits * 10 ^ exponent`. Decimals beyond the range of exponents are
decided without computing the power. -/
def ofDecimal (negative : Bool) (digits : Nat) (exponent : Int) : Binary64 :=
  ofMagnitude negative <|
    if digits = 0 ∨ exponent + digits.log2 < -331 then 0
    else if 310 < exponent then infinityBits
    else magnitudeOfRatio (digits * Nat.pow 10 exponent.toNat) (Nat.pow 10 (-exponent).toNat)

def isNegative (x : Binary64) : Bool :=
  signBit ≤ x.bits.toNat

def magnitude (x : Binary64) : Nat :=
  x.bits.toNat % signBit

def isFinite (x : Binary64) : Bool :=
  x.magnitude < infinityBits

/-- The value of a finite number is this whole number times two to the power of `lastPlace`. -/
def significand (x : Binary64) : Nat :=
  if x.magnitude < exponentBit then x.magnitude else x.magnitude % exponentBit + exponentBit

def lastPlace (x : Binary64) : Int :=
  ((x.magnitude / exponentBit : Nat) : Int) - 1075 + if x.magnitude < exponentBit then 1 else 0

/-- The whole number that a finite number is equal to, if there is one. -/
def toInt? (x : Binary64) : Option Int :=
  if !x.isFinite then none
  else
    let sign : Int := if x.isNegative then -1 else 1
    let unit := 1 <<< (-x.lastPlace).toNat
    if x.significand % unit = 0 then
      some (sign * ((x.significand <<< x.lastPlace.toNat) / unit : Nat))
    else none

example : (ofDecimal false 15 (-1)).bits = 0x3ff8000000000000 := by decide
example : (ofDecimal true 1 (-1)).bits = 0xbfb999999999999a := by decide
example : (ofDecimal false 5 (-324)).bits = 1 := by decide +kernel
example : (ofDecimal false 1 400).bits = 0x7ff0000000000000 := by decide
example : (ofDecimal false 17976931348623159 292).bits = 0x7ff0000000000000 := by decide +kernel
example : (ofDecimal true 25 (-1)).toInt? = none := by decide
example : (ofDecimal true 250 (-1)).toInt? = some (-25) := by decide

end Binary64

end DocAnnotations
