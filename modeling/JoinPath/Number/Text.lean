import JoinPath.Number.Shortest
/-!
# Numbers as text

The two ways in which a double is written: positional at any size in SQL and in listings, and with
an exponent for large and small numbers in JSON.
-/

namespace JoinPath

/-- `n` as at least `width` decimal digits. -/
def padded (width n : Nat) : String :=
  let digits := n.repr
  String.ofList (List.replicate (width - digits.length) '0') ++ digits

def zeros (n : Nat) : String := String.ofList (List.replicate n '0')

namespace Binary64

/-- How a format writes finite numbers. -/
structure NumberFormat where
  /-- Decimal exponents that are written without `e`; all of them if absent. -/
  positional : Option (Int × Int)
  /-- Whether a whole number ends in `.0`. -/
  pointZero : Bool
  /-- Which of two equally near shortest decimals is written. -/
  tie : Tie

/-- SQL text never has an exponent and writes whole numbers as integers. -/
def sqlFormat : NumberFormat := ⟨none, false, .up⟩

/-- JSON text has an exponent outside `10 ^ -5` to `10 ^ 16` and keeps the `.0` of whole numbers. -/
def jsonFormat : NumberFormat := ⟨some (-5, 15), true, .even⟩

/-- Writes `digits * 10 ^ k` without an exponent. -/
def positionalText (f : NumberFormat) (digits : String) (k : Int) : String :=
  let point := (digits.length : Int) + k
  if 0 ≤ k then digits ++ zeros k.toNat ++ (if f.pointZero then ".0" else "")
  else if 0 < point then
    let whole := digits.toList.take point.toNat
    String.ofList whole ++ "." ++ String.ofList (digits.toList.drop point.toNat)
  else "0." ++ zeros (-point).toNat ++ digits

/-- Writes `digits * 10 ^ k` with one digit before the point and an exponent. -/
def exponentText (digits : String) (k : Int) : String :=
  let e := (digits.length : Int) + k - 1
  let rest := String.ofList (digits.toList.drop 1)
  String.ofList (digits.toList.take 1) ++ (if rest = "" then "" else "." ++ rest)
    ++ "e" ++ (if e < 0 then "-" else "+") ++ e.natAbs.repr

/-- Writes the size of a finite double. -/
def sizeText (f : NumberFormat) (x : Binary64) : String :=
  if x.isZero then if f.pointZero then "0.0" else "0"
  else
    let (d, k) := x.shortest f.tie
    let digits := d.repr
    let e := (digits.length : Int) + k - 1
    match f.positional with
    | none => positionalText f digits k
    | some (low, high) =>
      if low ≤ e ∧ e ≤ high then positionalText f digits k else exponentText digits k

/-- Writes a finite double; also the zero keeps its sign. -/
def finiteText (f : NumberFormat) (x : Binary64) : String :=
  (if x.negative then "-" else "") ++ sizeText f x

/-- A double in SQL text. -/
def sqlText (x : Binary64) : String :=
  if x.isNaN then "NaN"
  else if x.isInfinite then if x.negative then "-inf" else "inf"
  else finiteText sqlFormat x

/-- A double in JSON text, which has no word for infinities and NaN. -/
def jsonText? (x : Binary64) : Option String :=
  if x.isFinite then some (finiteText jsonFormat x) else none

end Binary64

end JoinPath
