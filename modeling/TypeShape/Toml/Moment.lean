import TypeShape.Toml.Number

/-!
# Dates and times of TOML documents

A moment is a date, a time of the day, or a date and a time with or without an offset.  Every
reader gives the characters after what it reads.

Main definitions: `Toml.isMoment`, `Toml.isDate`, `Toml.isTimeOfDate`.
-/

namespace TypeShape
namespace Toml

/-- A number of just the given count of digits, and the characters after it. -/
def fixedNumber? (count : Nat) (cs : List Char) : Option (Nat × List Char) :=
  let head := cs.take count
  if head.length = count ∧ head.all Char.isDigit then some (digitsNumber 10 head, cs.drop count)
  else none

/-- Two digits that spell a number up to a limit. -/
def upTo? (limit : Nat) (cs : List Char) : Option (Nat × List Char) :=
  (fixedNumber? 2 cs).filter (·.1 ≤ limit)

/-- The characters after a mark. -/
def after? (mark : Char) : List Char → Option (List Char)
  | [] => none
  | c :: cs => if c = mark then some cs else none

/-! ## Dates -/

/-- A year with a 29th of February. -/
def isLeapYear (year : Nat) : Bool :=
  year % 4 == 0 && (year % 100 != 0 || year % 400 == 0)

/-- The number of days of a month. -/
def daysInMonth (year month : Nat) : Nat :=
  if month = 2 then if isLeapYear year then 29 else 28
  else if month ∈ [4, 6, 9, 11] then 30
  else 31

/-- A date: year, month and day. -/
def afterDate? (cs : List Char) : Option (List Char) := do
  let (year, rest) ← fixedNumber? 4 cs
  let (month, rest) ← upTo? 12 (← after? '-' rest)
  let (day, rest) ← upTo? (daysInMonth year month) (← after? '-' rest)
  if month = 0 ∨ day = 0 then none else some rest

/-! ## Times -/

/-- A fraction of a second, if there is one. -/
def skipSecondFraction : List Char → List Char
  | '.' :: c :: cs => if c.isDigit then cs.dropWhile Char.isDigit else '.' :: c :: cs
  | cs => cs

/-- A time of the day: hours, minutes and seconds.  A leap second is the sixtieth. -/
def afterTime? (cs : List Char) : Option (List Char) := do
  let (_, rest) ← upTo? 23 cs
  let (_, rest) ← upTo? 59 (← after? ':' rest)
  let (_, rest) ← upTo? 60 (← after? ':' rest)
  return skipSecondFraction rest

/-- An offset: the letter Z, or hours and minutes after a sign. -/
def afterOffset? : List Char → Option (List Char)
  | 'Z' :: cs => some cs
  | 'z' :: cs => some cs
  | c :: cs => do
    if c ≠ '+' ∧ c ≠ '-' then none
    let (_, rest) ← upTo? 23 cs
    let (_, rest) ← upTo? 59 (← after? ':' rest)
    return rest
  | [] => none

/-! ## Whole texts -/

/-- A date and nothing more. -/
def isDate (cs : List Char) : Bool :=
  afterDate? cs == some []

/-- A time as it stands after a date: an offset may follow it. -/
def isTimeOfDate (cs : List Char) : Bool :=
  match afterTime? cs with
  | none => false
  | some rest => rest.isEmpty || afterOffset? rest == some []

/-- A date, a time of the day, or a date and a time with the letter T between them. -/
def isMoment (cs : List Char) : Bool :=
  isDate cs || afterTime? cs == some [] ||
    match afterDate? cs with
    | some (mark :: time) => (mark == 'T' || mark == 't') && isTimeOfDate time
    | _ => false

end Toml
end TypeShape
