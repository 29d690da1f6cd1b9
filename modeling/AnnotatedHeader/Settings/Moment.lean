import AnnotatedHeader.Settings.Number

/-! Dates and times of a settings file: days that the calendar has, times with
seconds, and both together with an offset from universal time or without. -/
namespace AnnotatedHeader.Settings

/-- Two digits that write a number from `low` to `high`. -/
def isPair (low high : Nat) (cs : List Char) : Bool :=
  cs.length == 2 && cs.all Char.isDigit && low ≤ numberOf 10 cs && numberOf 10 cs ≤ high

def isLeapYear (y : Nat) : Bool := y % 4 == 0 && (y % 100 != 0 || y % 400 == 0)

def daysIn (y m : Nat) : Nat :=
  if m == 2 then (if isLeapYear y then 29 else 28)
  else if [4, 6, 9, 11].contains m then 30 else 31

def isDate (cs : List Char) : Bool :=
  let year := cs.take 4
  let month := (cs.drop 5).take 2
  cs.length == 10 && year.all Char.isDigit && (cs.drop 4).head? == some '-' && isPair 1 12 month &&
    (cs.drop 7).head? == some '-' &&
    isPair 1 (daysIn (numberOf 10 year) (numberOf 10 month)) (cs.drop 8)

/-- A time of the day; sixty seconds are a leap second. -/
def isTime (cs : List Char) : Bool :=
  isPair 0 23 (cs.take 2) && (cs.drop 2).head? == some ':' && isPair 0 59 ((cs.drop 3).take 2) &&
    (cs.drop 5).head? == some ':' && isPair 0 60 ((cs.drop 6).take 2) &&
    match cs.drop 8 with
    | [] => true
    | '.' :: fraction => !fraction.isEmpty && fraction.all Char.isDigit
    | _ => false

/-- A time with an offset from universal time. -/
def isZonedTime (cs : List Char) : Bool :=
  match cs.reverse with
  | 'Z' :: rest | 'z' :: rest => isTime rest.reverse
  | m2 :: m1 :: ':' :: h2 :: h1 :: sign :: rest =>
    (sign == '+' || sign == '-') && isPair 0 23 [h1, h2] && isPair 0 59 [m1, m2] &&
      isTime rest.reverse
  | _ => false

/-- What may stand behind a date, once it is separated. -/
def isDateTime (cs : List Char) : Bool := isTime cs || isZonedTime cs

/-- A date, a time, or both with a `T` between them. -/
def isMoment (cs : List Char) : Bool :=
  isDate cs || isTime cs ||
    isDate (cs.take 10) &&
      match cs.drop 10 with
      | c :: time => (c == 'T' || c == 't') && isDateTime time
      | [] => false

end AnnotatedHeader.Settings
