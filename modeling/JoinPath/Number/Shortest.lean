import JoinPath.Number.Binary64
/-!
# Shortest decimals

Every real number nearer to a double than to its neighbours reads back as that double. Among the
decimals in that interval, `shortest` takes one on the coarsest grid of powers of ten, and of two
the nearer, all in exact arithmetic. Where both are equally near, a rule decides.
-/

namespace JoinPath.Binary64

/-- The reals that read back as a double, in units of `2 ^ unit`: from `low` to `high` around
`centre`, ends included when `closed`. -/
structure ReadBack where
  low : Nat
  centre : Nat
  high : Nat
  unit : Int
  closed : Bool

/-- The interval of a finite double. Below a power of two the neighbours are half as far. -/
def readBack (x : Binary64) : ReadBack where
  low := 4 * x.significand - (if x.fraction = 0 ∧ 1 < x.exponentField then 1 else 2)
  centre := 4 * x.significand
  high := 4 * x.significand + 2
  unit := x.exponent - 2
  closed := x.significand % 2 = 0

/-- Natural numbers `a`, `b` with `d * 10 ^ k` to `n * 2 ^ unit` as `d * a` to `n * b`. -/
def commonScale (k unit : Int) : Nat × Nat :=
  (Nat.pow 10 k.toNat <<< (-unit).toNat, Nat.pow 10 (-k).toNat <<< unit.toNat)

/-- Whether the point `d` of a grid lies in the interval, both sides scaled. -/
def ReadBack.covers (i : ReadBack) (a b d : Nat) : Bool :=
  if i.closed then i.low * b ≤ d * a && d * a ≤ i.high * b
  else i.low * b < d * a && d * a < i.high * b

/-- Which of two equally near decimals is taken. -/
inductive Tie
  /-- The larger one. -/
  | up
  /-- The one with an even last digit. -/
  | even
deriving DecidableEq, Repr

/-- The nearer of `n` and `n + 1`, given the distances to both. -/
def Tie.nearer (tie : Tie) (n toBelow toAbove : Nat) : Nat :=
  if toBelow < toAbove then n
  else if toAbove < toBelow then n + 1
  else match tie with
    | .up => n + 1
    | .even => n + n % 2

/-- The point of the grid `10 ^ k` that reads back, if there is one; of two the nearer. -/
def ReadBack.onGrid? (i : ReadBack) (tie : Tie) (k : Int) : Option Nat :=
  let (a, b) := commonScale k i.unit
  let below := i.centre * b / a
  match i.covers a b below, i.covers a b (below + 1) with
  | true, true =>
    some (tie.nearer below (i.centre * b - below * a) ((below + 1) * a - i.centre * b))
  | true, false => some below
  | false, true => some (below + 1)
  | false, false => none

/-- An upper bound for the decimal exponent of the interval's points. -/
def ReadBack.topExponent (i : ReadBack) : Int :=
  ((i.high.log2 : Int) + 1 + i.unit) * 30103 / 100000 + 1

/-- The digits and the power of ten of the shortest decimal that reads back as a finite double
other than zero. Seventeen digits always suffice, so that the search ends with a point. -/
def shortest (tie : Tie) (x : Binary64) : Nat × Int :=
  let i := x.readBack
  ((List.range 20).findSome? fun (step : Nat) =>
    let k := i.topExponent - step
    (i.onGrid? tie k).map fun d => (d, k)).getD (0, 0)

end JoinPath.Binary64
