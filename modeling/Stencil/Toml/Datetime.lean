import Stencil.Toml.Reader

/-!
# Dates and times

* `Datetime`           a date, a time of day, or both, then with an offset from UTC or without;
* `Datetime.text`      its text, always with `T`, `Z` and without trailing zeros of a fraction;
* `Datetime.reader`    reads a date or time in front of other text;
* `Datetime.ofText?`   reads a whole text.

Hours of a day and of an offset end with 23 and minutes with 59; a minute may have a leap second.
A fraction of a second is cut to nine digits.
-/

namespace Stencil.Toml

structure Date where
  year : Nat
  month : Nat
  day : Nat
  deriving DecidableEq, Repr

structure Time where
  hour : Nat
  minute : Nat
  second : Nat
  nanosecond : Nat
  deriving DecidableEq, Repr

inductive Offset where
  | utc
  | minutes (n : Int)
  deriving DecidableEq, Repr

inductive Datetime where
  | date (d : Date)
  | time (t : Time)
  | both (d : Date) (t : Time) (offset : Option Offset)
  deriving DecidableEq, Repr

/-! ## writing -/

/-- a number with zeros in front of it, in `n` digits -/
def padded (n value : Nat) : String :=
  let s := toString value
  String.ofList (List.replicate (n - s.length) '0') ++ s

def Date.text (d : Date) : String :=
  String.join [padded 4 d.year, "-", padded 2 d.month, "-", padded 2 d.day]

def Time.text (t : Time) : String :=
  let fraction := (padded 9 t.nanosecond).toList.reverse.dropWhile (· == '0')
  let hms := String.join [padded 2 t.hour, ":", padded 2 t.minute, ":", padded 2 t.second]
  if fraction.isEmpty then hms else String.join [hms, ".", String.ofList fraction.reverse]

def Offset.text : Offset → String
  | utc => "Z"
  | minutes n =>
    let sign := if 0 ≤ n then "+" else "-"
    String.join [sign, padded 2 (n.natAbs / 60), ":", padded 2 (n.natAbs % 60)]

def Datetime.text : Datetime → String
  | date d => d.text
  | time t => t.text
  | both d t offset => String.join [d.text, "T", t.text, (offset.map Offset.text).getD ""]

/-! ## reading -/

open Reader

def digitsNat (s : List Char) : Nat := s.foldl (fun n c => 10 * n + (c.toNat - '0'.toNat)) 0

/-- a number of exactly `n` digits -/
def fixedDigits (n : Nat) : Reader Nat := digitsNat <$> count Char.isDigit n

/-- the same with an upper bound -/
def bounded (n most : Nat) : Reader Nat := do
  let value ← fixedDigits n
  if value ≤ most then pure value else failure

def isLeapYear (year : Nat) : Bool :=
  decide (year % 4 = 0) && (decide (year % 100 ≠ 0) || decide (year % 400 = 0))

def daysInMonth (year month : Nat) : Nat :=
  if month = 2 then if isLeapYear year then 29 else 28
  else if month = 4 ∨ month = 6 ∨ month = 9 ∨ month = 11 then 30
  else 31

def Date.reader : Reader Date := do
  let year ← fixedDigits 4
  char '-'
  let month ← bounded 2 12
  char '-'
  let day ← fixedDigits 2
  if 1 ≤ month ∧ 1 ≤ day ∧ day ≤ daysInMonth year month then pure ⟨year, month, day⟩ else failure

/-- the digits behind the point of a second, in nanoseconds -/
def fraction : Reader Nat := do
  char '.'
  let s ← takeSome Char.isDigit
  pure (digitsNat (s ++ List.replicate (9 - s.length) '0' |>.take 9))

def Time.reader : Reader Time := do
  let hour ← bounded 2 23
  char ':'
  let minute ← bounded 2 59
  char ':'
  let second ← bounded 2 60
  let nanosecond ← optional fraction
  pure ⟨hour, minute, second, nanosecond.getD 0⟩

def Offset.reader : Reader Offset := do
  let sign ← satisfy fun c => c == 'Z' || c == 'z' || c == '+' || c == '-'
  if sign = 'Z' ∨ sign = 'z' then pure .utc
  else
    let hour ← bounded 2 23
    char ':'
    let minute ← bounded 2 59
    let total : Int := hour * 60 + minute
    pure (.minutes (if sign = '-' then -total else total))

def isDelimiter (c : Char) : Bool := c == 'T' || c == 't' || c == ' '

/-- a time of day behind a date, with an offset or without -/
def timeOfDay (d : Date) : Reader Datetime := do
  let _ ← satisfy isDelimiter
  let t ← Time.reader
  let offset ← optional Offset.reader
  pure (.both d t offset)

def Datetime.reader : Reader Datetime :=
  (do let d ← Date.reader
      timeOfDay d <|> pure (.date d)) <|>
  (.time <$> Time.reader)

def Datetime.ofText? (s : String) : Option Datetime :=
  Datetime.reader.whole? s.toList

end Stencil.Toml
