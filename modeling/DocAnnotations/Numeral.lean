import DocAnnotations.Text.Digit
import DocAnnotations.Value

/-!
Numbers as they are written: an optional sign, a whole part without needless zeros, an optional
fraction and an optional exponent.
-/

namespace DocAnnotations

/-- A written number, part by part. -/
structure Numeral where
  negative : Bool
  whole : List Char
  fraction : List Char
  /-- The exponent's sign and digits. -/
  exponent : Option (Bool × List Char)
  deriving DecidableEq, Repr

namespace Numeral

open Text

/-- Whole numbers with more digits are not read. -/
def maxDigits : Nat := 4300

/-- Cuts off a sign in front. -/
def cutMinus : List Char → Bool × List Char
  | '-' :: cs => (true, cs)
  | cs => (false, cs)

/-- Cuts off a whole part, which is a zero or starts with another ASCII digit. -/
def cutWhole (isDigit : Char → Bool) : List Char → Option (List Char × List Char)
  | [] => none
  | c :: cs =>
    if c = '0' then some ([c], cs)
    else if c.isDigit then some (c :: cs.takeWhile isDigit, cs.dropWhile isDigit)
    else none

/-- Cuts off a point with the digits after it. Without digits there is no fraction. -/
def cutFraction (isDigit : Char → Bool) : List Char → List Char × List Char
  | '.' :: cs =>
    if (cs.takeWhile isDigit).isEmpty then ([], '.' :: cs)
    else (cs.takeWhile isDigit, cs.dropWhile isDigit)
  | cs => ([], cs)

/-- The sign of an exponent and what follows it. -/
def cutSign : List Char → Bool × List Char
  | '+' :: cs => (false, cs)
  | cs => cutMinus cs

/-- Cuts off an exponent. Without digits there is none. -/
def cutExponent (isDigit : Char → Bool) : List Char → Option (Bool × List Char) × List Char
  | [] => (none, [])
  | c :: cs =>
    let (negative, digits) := cutSign cs
    if (c = 'e' ∨ c = 'E') ∧ (digits.takeWhile isDigit) ≠ [] then
      (some (negative, digits.takeWhile isDigit), digits.dropWhile isDigit)
    else (none, c :: cs)

/-- Cuts off the longest number in front, with digits of the given class. -/
def cut (isDigit : Char → Bool) (cs : List Char) : Option (Numeral × List Char) :=
  let (negative, cs) := cutMinus cs
  match cutWhole isDigit cs with
  | none => none
  | some (whole, cs) =>
    let (fraction, cs) := cutFraction isDigit cs
    let (exponent, cs) := cutExponent isDigit cs
    some (⟨negative, whole, fraction, exponent⟩, cs)

/-- Whether all of the text is a number with digits of the given class. -/
def isNumeral (isDigit : Char → Bool) (cs : List Char) : Bool :=
  match cut isDigit cs with
  | some (_, []) => true
  | _ => false

def isWhole (n : Numeral) : Bool :=
  n.fraction.isEmpty && n.exponent.isNone

/-- Whether the number is whole and longer than what is read. -/
def isOversized (n : Numeral) : Bool :=
  n.isWhole && maxDigits < n.whole.length

/-- The power of ten that the exponent gives. -/
def exponentValue (n : Numeral) : Int :=
  match n.exponent with
  | none => 0
  | some (negative, digits) => if negative then -decimalValue digits else decimalValue digits

/-- The number itself: whole if it is written without fraction and exponent, else the nearest
floating-point number. -/
def value (n : Numeral) : Value :=
  if n.isWhole then
    .int (if n.negative then -decimalValue n.whole else decimalValue n.whole)
  else
    .float (.ofDecimal n.negative (decimalValue (n.whole ++ n.fraction))
      (n.exponentValue - n.fraction.length))

end Numeral

end DocAnnotations
