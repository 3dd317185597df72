import JoinPath.Number.Decimal
import JoinPath.Text.Blank
import JoinPath.Timestamp.Basic
/-!
# Reading timestamps

The form `2024-03-01T10:30:00.5`. Fields may be shorter than usual, a year with a sign may be
longer, and blanks are allowed before every field and every mark except the fraction's point.
-/

namespace JoinPath.Timestamp

open Text (trimLeft)

/-- Reads at least one and at most `most` digits. -/
def digits? (most : Nat) (text : List Char) : Option (List Char × List Char) :=
  let found := (text.take most).takeWhile isDecimalDigit
  if found = [] then none else some (found, text.drop found.length)

/-- Reads a number after blanks. -/
def field? (most : Nat) (text : List Char) : Option (Nat × List Char) :=
  (digits? most (trimLeft text)).map fun (found, rest) => (natOfDigits 10 found, rest)

/-- Reads a year after blanks; only a year with a sign may have more than four digits. -/
def year? (text : List Char) : Option (Int × List Char) :=
  match trimLeft text with
  | '-' :: rest => (digits? rest.length rest).map fun (d, rest) => (-(natOfDigits 10 d : Int), rest)
  | '+' :: rest => (digits? rest.length rest).map fun (d, rest) => (natOfDigits 10 d, rest)
  | rest => (digits? 4 rest).map fun (d, rest) => (natOfDigits 10 d, rest)

/-- Reads a mark after blanks. -/
def mark? (c : Char) (text : List Char) : Option (List Char) :=
  match trimLeft text with
  | d :: rest => if d = c then some rest else none
  | [] => none

/-- Reads a fraction of a second as nanoseconds; digits after the ninth are dropped. -/
def fraction? : List Char → Option (Nat × List Char)
  | '.' :: rest => do
    let (found, rest) ← digits? 9 rest
    some (natOfDigits 10 found * Nat.pow 10 (9 - found.length), rest.dropWhile isDecimalDigit)
  | rest => some (0, rest)

/-- Second 60 is the leap second after second 59. -/
def leapSecond (second nanosecond : Nat) : Nat × Nat :=
  if second = 60 then (59, 1000000000 + nanosecond) else (second, nanosecond)

/-- Reads a timestamp with nothing but blanks around it. -/
def ofText? (s : String) : Option Timestamp := do
  let (year, rest) ← year? s.toList
  let (month, rest) ← field? 2 (← mark? '-' rest)
  let (day, rest) ← field? 2 (← mark? '-' rest)
  let (hour, rest) ← field? 2 (← mark? 'T' rest)
  let (minute, rest) ← field? 2 (← mark? ':' rest)
  let (second, rest) ← field? 2 (← mark? ':' rest)
  let (nanosecond, rest) ← fraction? rest
  let (second, nanosecond) := leapSecond second nanosecond
  if trimLeft rest = [] then ofFields? year month day hour minute second nanosecond else none

end JoinPath.Timestamp
