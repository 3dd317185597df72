/-!
# Binary64

A double is kept as its 64 bits, so that reading, printing and comparing are exact arithmetic on
natural numbers. `ofRatio` rounds a quotient to the nearest double, half to even; products and
quotients of doubles are that rounding of the exact result.
-/

namespace JoinPath

/-- An IEEE 754 double, given by its bits. -/
structure Binary64 where
  bits : UInt64
deriving DecidableEq, Repr, Inhabited

namespace Binary64

/-- The bits below the sign. -/
def magnitude (x : Binary64) : Nat := x.bits.toNat % (1 <<< 63)

def negative (x : Binary64) : Bool := 1 <<< 63 ≤ x.bits.toNat

/-- The biased exponent. -/
def exponentField (x : Binary64) : Nat := x.magnitude >>> 52

/-- The stored part of the significand. -/
def fraction (x : Binary64) : Nat := x.magnitude % (1 <<< 52)

def isNaN (x : Binary64) : Bool := 2047 <<< 52 < x.magnitude

def isInfinite (x : Binary64) : Bool := x.magnitude = 2047 <<< 52

def isFinite (x : Binary64) : Bool := x.magnitude < 2047 <<< 52

def isZero (x : Binary64) : Bool := x.magnitude = 0

/-- The significand `m` of a finite `x`, whose size is `m * 2 ^ x.exponent`. -/
def significand (x : Binary64) : Nat :=
  if x.exponentField = 0 then x.fraction else (1 <<< 52) + x.fraction

/-- The exponent that goes with `significand`. -/
def exponent (x : Binary64) : Int :=
  if x.exponentField = 0 then -1074 else (x.exponentField : Int) - 1075

/-- Numbers compare by value: a NaN equals nothing, and the two zeros are equal. -/
instance : BEq Binary64 where
  beq x y := !x.isNaN && !y.isNaN && (x.bits == y.bits || (x.isZero && y.isZero))

/-- The double of the given sign and bits below the sign. -/
def ofMagnitude (negative : Bool) (magnitude : Nat) : Binary64 :=
  ⟨.ofNat (if negative then (1 <<< 63) + magnitude else magnitude)⟩

def zero (negative : Bool) : Binary64 := ofMagnitude negative 0

def infinity (negative : Bool) : Binary64 := ofMagnitude negative (2047 <<< 52)

/-- The quiet NaN that stands for all of them. -/
def nan : Binary64 := ofMagnitude false ((2047 <<< 52) + (1 <<< 51))

/-- Turns the sign. -/
def neg (x : Binary64) : Binary64 := ofMagnitude (!x.negative) x.magnitude

/-- The natural number nearest to `num / den`, a half going to the even neighbour. -/
def roundHalfEven (num den : Nat) : Nat :=
  let low := num / den
  let rest := num % den
  if 2 * rest < den ∨ (2 * rest = den ∧ low % 2 = 0) then low else low + 1

/-- `num / den * 2 ^ shift` as a fraction of natural numbers. -/
def shiftRatio (num den : Nat) (shift : Int) : Nat × Nat :=
  (num <<< shift.toNat, den <<< (-shift).toNat)

/-- The double nearest to `num / den`, a half going to the even neighbour; a size beyond the
largest double gives infinity. The exponent is the one that leaves 53 bits, but not below that of
the subnormal numbers. -/
def ofRatio (negative : Bool) (num den : Nat) : Binary64 :=
  if num = 0 then zero negative else
    let guess : Int := (num.log2 : Int) - den.log2 - 52
    let (n, d) := shiftRatio num den (-guess)
    let exponent := max (if n / d < 1 <<< 52 then guess - 1 else guess) (-1074)
    let (n, d) := shiftRatio num den (-exponent)
    let magnitude := ((exponent + 1074).toNat <<< 52) + roundHalfEven n d
    if magnitude < 2047 <<< 52 then ofMagnitude negative magnitude else infinity negative

/-- The double nearest to a natural number. -/
def ofNat (n : Nat) : Binary64 := ofRatio false n 1

/-- The rounded product of two finite doubles. -/
def mul (x y : Binary64) : Binary64 :=
  let (n, d) := shiftRatio (x.significand * y.significand) 1 (x.exponent + y.exponent)
  ofRatio (x.negative != y.negative) n d

/-- The rounded quotient of two finite doubles, the second not zero. -/
def div (x y : Binary64) : Binary64 :=
  let (n, d) := shiftRatio x.significand y.significand (x.exponent - y.exponent)
  ofRatio (x.negative != y.negative) n d

end Binary64

end JoinPath
