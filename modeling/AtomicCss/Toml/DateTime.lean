import AtomicCss.Text.Hex
set_option autoImplicit false

/-!
Dates and times of TOML, and the text in which they are passed on.

A `T` parts date and time, fractions of a second have at most nine digits and no trailing zeros, and
an offset is `Z` or a signed number of hours and minutes, where no offset counts as positive.
-/

namespace AtomicCss.Toml

def fixedDigits? (n : Nat) (t : Text) : Option (Text × Text) :=
  let digits := t.take n
  if digits.length = n && digits.all Char.isDigit then some (digits, t.drop n) else none

/-- Exactly `n` digits that write a number from `low` to `high`. -/
def field? (n low high : Nat) (t : Text) : Option (Text × Text) := do
  let (digits, r) ← fixedDigits? n t
  if low ≤ decimalNumber digits && decimalNumber digits ≤ high then some (digits, r) else none

def sign? (c : Char) : Text → Option Text
  | d :: r => if d = c then some r else none
  | [] => none

def isLeapYear (year : Nat) : Bool := year % 4 = 0 && (year % 100 ≠ 0 || year % 400 = 0)

def daysInMonth (year month : Nat) : Nat :=
  if month = 2 then if isLeapYear year then 29 else 28
  else if [4, 6, 9, 11].contains month then 30
  else 31

def date? (t : Text) : Option (Text × Text) := do
  let (year, r) ← fixedDigits? 4 t
  let r ← sign? '-' r
  let (month, r) ← field? 2 1 12 r
  let r ← sign? '-' r
  let (day, r) ← field? 2 1 (daysInMonth (decimalNumber year) (decimalNumber month)) r
  some (year ++ '-' :: (month ++ '-' :: day), r)

/-- Fractions of a second as they are passed on, and what follows them. -/
def fraction (t : Text) : Text × Text :=
  match t with
  | '.' :: r =>
    let digits := r.takeWhile Char.isDigit
    if digits.isEmpty then ([], t)
    else
      let kept := ((digits.take 9).reverse.dropWhile (· = '0')).reverse
      (if kept.isEmpty then [] else '.' :: kept, r.dropWhile Char.isDigit)
  | _ => ([], t)

/-- A second may be the sixtieth, for leap seconds. -/
def time? (t : Text) : Option (Text × Text) := do
  let (hour, r) ← field? 2 0 23 t
  let r ← sign? ':' r
  let (minute, r) ← field? 2 0 59 r
  let r ← sign? ':' r
  let (second, r) ← field? 2 0 60 r
  let (fraction, r) := fraction r
  some (hour ++ ':' :: (minute ++ ':' :: (second ++ fraction)), r)

/-- An offset, if there is one; none at all if it is malformed. -/
def offset? (t : Text) : Option (Text × Text) :=
  match t with
  | 'Z' :: r | 'z' :: r => some (['Z'], r)
  | c :: r =>
    if c = '+' || c = '-' then do
      let (hour, r) ← field? 2 0 23 r
      let r ← sign? ':' r
      let (minute, r) ← field? 2 0 59 r
      let isZero := decimalNumber hour = 0 && decimalNumber minute = 0
      some ((if isZero then '+' else c) :: (hour ++ ':' :: minute), r)
    else some ([], t)
  | [] => some ([], t)

/-- A date, a time, or both with an offset perhaps. -/
def dateTime? (t : Text) : Option (Text × Text) :=
  match date? t with
  | none => time? t
  | some (date, r) =>
    match r with
    | c :: r' =>
      if c = 'T' || c = 't' || c = ' ' then
        match time? r' with
        | none => some (date, r)
        | some (time, r) => do
          let (offset, r) ← offset? r
          some (date ++ 'T' :: (time ++ offset), r)
      else some (date, r)
    | [] => some (date, [])

end AtomicCss.Toml
