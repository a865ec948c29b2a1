import Stencil.Binary64.Shortest

/-!
# Texts of floating-point numbers

* `ofText?`     reads a decimal with an optional fraction and exponent, or a name;
* `plainText`   the shortest decimal without an exponent;
* `text`        the same, with an exponent for very large and very small numbers.

Both ways of writing keep the sign of a zero and put `.0` behind a whole number, but not behind a
mantissa before an exponent.
-/

namespace Stencil.Binary64

/-! ## reading -/

def digitsValue (s : List Char) : Nat := s.foldl (fun n c => 10 * n + (c.toNat - '0'.toNat)) 0

/-- digits, and the text after them -/
def spanDigits (s : List Char) : List Char × List Char :=
  (s.takeWhile Char.isDigit, s.dropWhile Char.isDigit)

/-- a sign if there is one, and whether it is a minus -/
def spanSign : List Char → Bool × List Char
  | '-' :: r => (true, r)
  | '+' :: r => (false, r)
  | s => (false, s)

/-- an exponent up to the end of the text; nothing stands for zero -/
def exponentOfText? : List Char → Option Int
  | [] => some 0
  | c :: r =>
    if c = 'e' ∨ c = 'E' then
      let s := spanSign r
      if s.2.isEmpty || !s.2.all Char.isDigit then none
      else some (if s.1 then -(digitsValue s.2 : Int) else digitsValue s.2)
    else none

/-- a decimal without a sign -/
def ofUnsigned? (negative : Bool) (s : List Char) : Option Binary64 :=
  let whole := spanDigits s
  let fraction := match whole.2 with
    | '.' :: r => spanDigits r
    | r => ([], r)
  let digits := whole.1 ++ fraction.1
  if digits.isEmpty then none
  else (exponentOfText? fraction.2).map fun e =>
    ofDecimal negative (digitsValue digits) (e - fraction.1.length)

/-- a number from its text; the names of special values may have letters of either case -/
def ofText? (s : List Char) : Option Binary64 :=
  let u := spanSign s
  let name := String.ofList (u.2.map Char.toLower)
  if name = "inf" ∨ name = "infinity" then some (infinite u.1)
  else if name = "nan" then some nan
  else ofUnsigned? u.1 u.2

/-! ## writing -/

def zeros (n : Nat) : List Char := List.replicate n '0'

/-- digits around a decimal point -/
def Digits.plain (d : Digits) : List Char :=
  if d.point ≤ 0 then "0.".toList ++ zeros (-d.point).toNat ++ d.digits
  else
    let n := d.point.toNat
    if d.digits.length ≤ n then d.digits ++ zeros (n - d.digits.length) ++ ".0".toList
    else d.digits.take n ++ '.' :: d.digits.drop n

/-- digits with the point behind the first of them, and an exponent -/
def Digits.scientific (d : Digits) : List Char :=
  let fraction := d.digits.drop 1
  d.digits.take 1 ++ (if fraction.isEmpty then [] else '.' :: fraction) ++
    'e' :: (toString (d.point - 1)).toList

/-- numbers of at least `10 ^ 16`, or below `10 ^ -4`, are written with an exponent -/
def Digits.needsExponent (d : Digits) : Bool :=
  d.digits != ['0'] && (decide (16 < d.point) || decide (d.point < -3))

def signed (negative : Bool) (s : List Char) : List Char := if negative then '-' :: s else s

def write (layout : Digits → List Char) : Binary64 → String
  | nan => "nan"
  | infinite negative => String.ofList (signed negative "inf".toList)
  | finite negative mantissa exponent =>
    String.ofList (signed negative (layout (shortest mantissa exponent)))

/-- the shortest decimal without an exponent -/
def plainText : Binary64 → String := write Digits.plain

/-- the shortest decimal, with an exponent where one is needed -/
def text : Binary64 → String :=
  write fun d => if d.needsExponent then d.scientific else d.plain

end Stencil.Binary64
