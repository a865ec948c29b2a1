import Stencil.Binary64.Basic

/-!
# Shortest decimals

The shortest decimal of a number is the one with the fewest digits among those that round to the
number; of two such decimals, the nearer one, and the greater one if both are equally near.

* `Interval`   the decimals that round to a number, scaled to integers;
* `shortest`   the digits of the shortest decimal, and the place of its point.

The search tries one digit, two digits, and so on.  On each of these grids only the two neighbours
of the number can be the nearest point.
-/

namespace Stencil.Binary64

/-- digits `d₁ d₂ …` with the value `0.d₁d₂… * 10 ^ point` -/
structure Digits where
  digits : List Char
  point : Int
  deriving DecidableEq, Repr

/-- a value and the ends of the interval that rounds to it, all over `unit` -/
structure Interval where
  low : Nat
  value : Nat
  high : Nat
  unit : Nat
  /-- whether the ends themselves round to the value -/
  closed : Bool

/-- the interval of `mantissa * 2 ^ exponent` in steps of `10 ^ grid` -/
def interval (mantissa : Nat) (exponent grid : Int) : Interval :=
  let below := if mantissa = twoPow 52 ∧ -1074 < exponent then 1 else 2
  let factor := twoPow (exponent - 2).toNat * tenPow (-grid).toNat
  let unit := twoPow (2 - exponent).toNat * tenPow grid.toNat
  ⟨(4 * mantissa - below) * factor, 4 * mantissa * factor, (4 * mantissa + 2) * factor, unit,
    mantissa % 2 = 0⟩

/-- the step of the grid next to the value, if a neighbour of the value is in the interval -/
def Interval.nearest? (i : Interval) : Option Nat :=
  let t := i.value / i.unit
  let rest := i.value % i.unit
  let down := decide (i.low < t * i.unit) || (i.closed && decide (i.low = t * i.unit))
  let up := decide ((t + 1) * i.unit < i.high) || (i.closed && decide ((t + 1) * i.unit = i.high))
  if up && (!down || decide (i.unit ≤ 2 * rest)) then some (t + 1)
  else if down then some t
  else none

/-- the number of digits before the point of a positive number; at most zero below one -/
def pointOf (mantissa : Nat) (exponent : Int) : Int :=
  let scaled := mantissa * twoPow exponent.toNat * tenPow 400 / twoPow (-exponent).toNat
  (digitCount scaled : Int) - 400

def dropZeros (s : List Char) : List Char := (s.reverse.dropWhile (· == '0')).reverse

/-- the digits of a number of steps of a grid, and the place of the point -/
def Digits.ofSteps (steps : Nat) (grid : Int) : Digits :=
  let all := Nat.toDigits 10 steps
  ⟨dropZeros all, (all.length : Int) + grid⟩

/-- the shortest decimal of `mantissa * 2 ^ exponent`, which has 17 digits at most -/
def shortest (mantissa : Nat) (exponent : Int) : Digits :=
  if mantissa = 0 then ⟨['0'], 1⟩
  else
    let point := pointOf mantissa exponent
    let hit? := fun n : Nat =>
      let grid := point - (n + 1)
      ((interval mantissa exponent grid).nearest?).map fun steps => Digits.ofSteps steps grid
    ((List.range 17).findSome? hit?).getD ⟨['0'], 1⟩

end Stencil.Binary64
