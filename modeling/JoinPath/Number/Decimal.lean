import JoinPath.Number.Binary64
/-!
# Decimal numbers

A decimal is a digit string with a power of ten. `toBinary64` is the double nearest to it; numbers
far outside the range of a double are settled by their size, before the power is worked out.
-/

namespace JoinPath

/-- The value of a digit of any base up to sixteen. -/
def digitValue? (c : Char) : Option Nat :=
  if '0' ≤ c ∧ c ≤ '9' then some (c.toNat - '0'.toNat)
  else if 'a' ≤ c ∧ c ≤ 'f' then some (c.toNat - 'a'.toNat + 10)
  else if 'A' ≤ c ∧ c ≤ 'F' then some (c.toNat - 'A'.toNat + 10)
  else none

/-- The number that digits of base `base` spell, the first being the most significant. -/
def natOfDigits (base : Nat) (digits : List Char) : Nat :=
  digits.foldl (fun n c => n * base + (digitValue? c).getD 0) 0

def isDecimalDigit (c : Char) : Bool := '0' ≤ c && c ≤ '9'

def isHexDigit (c : Char) : Bool := (digitValue? c).isSome

/-- The number `± digits * 10 ^ exponent`. -/
structure Decimal where
  negative : Bool
  digits : Nat
  exponent : Int
deriving DecidableEq, Repr

namespace Decimal

/-- How many digits `n` has; zero has none. -/
def digitCount (n : Nat) : Nat := if n = 0 then 0 else (Nat.toDigits 10 n).length

/-- The nearest double. Above `10 ^ 310` that is infinity and below `10 ^ -330` zero. -/
def toBinary64 (d : Decimal) : Binary64 :=
  let size : Int := digitCount d.digits + d.exponent
  if d.digits = 0 ∨ size < -330 then .zero d.negative
  else if 310 < size then .infinity d.negative
  else .ofRatio d.negative (d.digits * Nat.pow 10 d.exponent.toNat)
    (Nat.pow 10 (-d.exponent).toNat)

/-- Reads an optional sign; the flag tells a minus. -/
def sign : List Char → Bool × List Char
  | '-' :: rest => (true, rest)
  | '+' :: rest => (false, rest)
  | rest => (false, rest)

/-- Reads digits up to the end of the text, at least one. -/
def allDigits? (text : List Char) : Option Nat :=
  if text ≠ [] ∧ text.all isDecimalDigit then some (natOfDigits 10 text) else none

/-- Reads a signed integer with nothing around it. -/
def int? (text : List Char) : Option Int :=
  let (negative, rest) := sign text
  (allDigits? rest).map fun n => if negative then -n else n

/-- Reads `e` with an optional sign and digits, or nothing. -/
def exponent? : List Char → Option Int
  | [] => some 0
  | c :: rest => if c = 'e' ∨ c = 'E' then int? rest else none

/-- Reads an unsigned decimal. Digits may be missing on one side of the point, but not on both. -/
def unsigned? (negative : Bool) (text : List Char) : Option Decimal :=
  let whole := text.takeWhile isDecimalDigit
  let rest := text.dropWhile isDecimalDigit
  let (part, rest) := match rest with
    | '.' :: rest => (rest.takeWhile isDecimalDigit, rest.dropWhile isDecimalDigit)
    | rest => ([], rest)
  if whole ++ part = [] then none
  else (exponent? rest).map fun e => ⟨negative, natOfDigits 10 (whole ++ part), e - part.length⟩

end Decimal

/-- Lower-cases the letters of ASCII only. -/
def asciiLower (s : String) : String := String.ofList (s.toList.map Char.toLower)

/-- Reads a number as people type it: a signed decimal, or the name of an infinity or of NaN in
any case. -/
def Binary64.ofText? (s : String) : Option Binary64 :=
  let (negative, rest) := Decimal.sign s.toList
  let name := rest.map Char.toLower
  if name = "inf".toList ∨ name = "infinity".toList then some (.infinity negative)
  else if name = "nan".toList then some .nan
  else (Decimal.unsigned? negative rest).map Decimal.toBinary64

/-- An integer that fits 64 bits. -/
def int64OfInt? (n : Int) : Option Int64 :=
  if Int64.minValue.toInt ≤ n ∧ n ≤ Int64.maxValue.toInt then some (.ofInt n) else none

/-- Reads a signed decimal integer that fits 64 bits. -/
def int64OfText? (s : String) : Option Int64 := (Decimal.int? s.toList).bind int64OfInt?

end JoinPath
