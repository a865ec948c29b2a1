/-!
# Binary floating-point numbers with 64 bits

A finite number is `± mantissa * 2 ^ exponent`, with a mantissa below `2 ^ 53` and the smallest
exponent, at least `-1074`, for which it fits.  All arithmetic here is exact.

* `Binary64`             finite numbers, infinities, and one NaN;
* `Binary64.ofRatio`     the number next to a fraction, a tie going to the even mantissa;
* `Binary64.ofDecimal`   the same for a decimal;
* `Binary64.same`        equality of values: zeros of both signs are equal, NaN equals nothing.
-/

namespace Stencil

inductive Binary64 where
  | nan
  | infinite (negative : Bool)
  | finite (negative : Bool) (mantissa : Nat) (exponent : Int)
  deriving DecidableEq, Repr

namespace Binary64

def zero (negative : Bool) : Binary64 := finite negative 0 (-1074)

/-! ## powers -/

def twoPow (n : Nat) : Nat := Nat.pow 2 n

def tenPow (n : Nat) : Nat := Nat.pow 10 n

/-! ## rounding -/

/-- the quotient rounded to the nearest integer, a tie going to the even one -/
def divToEven (num den : Nat) : Nat :=
  let q := num / den
  let twice := 2 * (num % den)
  if twice < den then q else if den < twice then q + 1 else q + q % 2

/-- a fraction divided by a power of two -/
def scaleDown (num den : Nat) (exponent : Int) : Nat × Nat :=
  if 0 ≤ exponent then (num, den * twoPow exponent.toNat) else (num * twoPow (-exponent).toNat, den)

/-- the smallest exponent for which the mantissa of `num / den` fits, up to rounding -/
def exponentOf (num den : Nat) : Int :=
  let low := max ((num.log2 : Int) - den.log2 - 53) (-1074)
  let s := scaleDown num den low
  if s.1 / s.2 < twoPow 53 then low else low + 1

/-- a positive fraction as a number -/
def ofRatio (negative : Bool) (num den : Nat) : Binary64 :=
  let exponent := exponentOf num den
  let s := scaleDown num den exponent
  let mantissa := divToEven s.1 s.2
  let r := if mantissa = twoPow 53 then (twoPow 52, exponent + 1) else (mantissa, exponent)
  if 971 < r.2 then infinite negative else finite negative r.1 r.2

/-- the number of decimal digits of a natural number -/
def digitCount (n : Nat) : Nat := (Nat.toDigits 10 n).length

/-- `± digits * 10 ^ exponent` as a number -/
def ofDecimal (negative : Bool) (digits : Nat) (exponent : Int) : Binary64 :=
  let magnitude := (digitCount digits : Int) + exponent
  if digits = 0 ∨ magnitude < -400 then zero negative
  else if 400 < magnitude then infinite negative
  else if 0 ≤ exponent then ofRatio negative (digits * tenPow exponent.toNat) 1
  else ofRatio negative digits (tenPow (-exponent).toNat)

/-! ## equality -/

def same : Binary64 → Binary64 → Bool
  | nan, _ => false
  | _, nan => false
  | finite _ 0 _, finite _ 0 _ => true
  | x, y => x == y

end Binary64

end Stencil
