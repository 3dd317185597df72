import JoinPath.Number.Decimal
/-!
# JSON numbers

How a number is spelled and what it stands for. Integers that fit 64 bits are exact. A float keeps
the leading digits that fit 64 bits as its significand and is scaled by powers of ten in double
arithmetic, so that its last bit may differ from the nearest double.
-/

namespace JoinPath

/-- The parts of a number; a part that is missing has no digits. -/
structure Numeral where
  negative : Bool
  whole : List Char
  fraction : List Char
  exponent : Option Int
deriving DecidableEq, Repr

namespace Numeral

/-- Reads digits, at least one. -/
def digits? (text : List Char) : Option (List Char × List Char) :=
  let found := text.takeWhile isDecimalDigit
  if found = [] then none else some (found, text.dropWhile isDecimalDigit)

/-- Reads digits that do not begin with a zero, unless it is the only one. -/
def whole? (text : List Char) : Option (List Char × List Char) := do
  match ← digits? text with
  | ('0' :: _ :: _, _) => none
  | found => some found

def fraction? : List Char → Option (List Char × List Char)
  | '.' :: rest => digits? rest
  | rest => some ([], rest)

def exponent? : List Char → Option (Option Int × List Char)
  | 'e' :: rest | 'E' :: rest => do
    let (negative, rest) := Decimal.sign rest
    let (found, rest) ← digits? rest
    let n : Int := natOfDigits 10 found
    some (some (if negative then -n else n), rest)
  | rest => some (none, rest)

/-- Reads a number from the beginning of a text. -/
def read? (text : List Char) : Option (Numeral × List Char) := do
  let (negative, rest) := match text with
    | '-' :: rest => (true, rest)
    | rest => (false, rest)
  let (whole, rest) ← whole? rest
  let (fraction, rest) ← fraction? rest
  let (exponent, rest) ← exponent? rest
  some (⟨negative, whole, fraction, exponent⟩, rest)

/-! ## Meaning -/

/-- A number that was read: an integer of 64 bits, with or without a sign, or a float. -/
inductive Meaning
  | integer (n : Int)
  | float (x : Binary64)

/-- Adds digits to a significand while it fits 64 bits; the second part tells how many. -/
def accumulate (significand : Nat) : List Char → Nat × Nat
  | [] => (significand, 0)
  | c :: rest =>
    let next := significand * 10 + (digitValue? c).getD 0
    if next < 1 <<< 64 then
      let (s, n) := accumulate next rest
      (s, n + 1)
    else (significand, 0)

/-- `x * 10 ^ e` in steps that stay within the powers a double has. `steps` bounds the divisions,
of which three make any significand zero. A result that is too large has no value. -/
def scale (steps : Nat) (x : Binary64) (e : Int) : Option Binary64 :=
  if 0 ≤ e ∧ e ≤ 308 then
    let y := x.mul (.ofNat (Nat.pow 10 e.toNat))
    if y.isInfinite then none else some y
  else if -308 ≤ e ∧ e < 0 then some (x.div (.ofNat (Nat.pow 10 (-e).toNat)))
  else if x.isZero then some x
  else if 0 ≤ e then none
  else match steps with
    | 0 => some (.zero false)
    | steps + 1 => scale steps (x.div (.ofNat (Nat.pow 10 308))) (e + 308)

/-- The float that a number stands for. Whole digits that do not fit raise the power of ten, and
digits of the fraction that do lower it. -/
def float? (n : Numeral) : Option Binary64 := do
  let (significand, taken) := accumulate 0 n.whole
  let (significand, places) := accumulate significand n.fraction
  let power := (n.whole.length : Int) - taken - places + n.exponent.getD 0
  let x ← scale 3 (.ofNat significand) power
  some (if n.negative then x.neg else x)

/-- What a number stands for. A minus zero is a float. -/
def meaning? (n : Numeral) : Option Meaning :=
  let size := natOfDigits 10 n.whole
  if n.fraction = [] ∧ n.exponent = none ∧ size < 1 <<< 64 then
    if !n.negative then some (.integer size)
    else if 0 < size ∧ size ≤ 1 <<< 63 then some (.integer (-size))
    else some (.float (.ofRatio true size 1))
  else n.float?.map .float

/-- What the whole text stands for. -/
def ofText? (text : String) : Option Meaning := do
  match ← read? text.toList with
  | (n, []) => n.meaning?
  | _ => none

end Numeral

end JoinPath
