/-!
# Number types

Everything numerical is written over a number type `R`, so that the same
definitions run on binary floating point and can be read over an exact field.
`Scalar` collects the operations that discrete-time solution needs, and
`Analytic` the functions behind Poisson probabilities.
-/

namespace Markov

/-- The operations on weights, values and bounds. -/
class Scalar (R : Type) extends Add R, Sub R, Mul R, Div R, Neg R, Zero R, One R, LT R, LE R,
    BEq R where
  [decidableLt : DecidableLT R]
  [decidableLe : DecidableLE R]
  /-- The total of no summands, from which every sum starts. -/
  emptySum : R
  /-- The value of a cost that is never paid off. -/
  infinity : R
  isFinite : R → Bool
  /-- Whether a finite number has no fractional part. -/
  isWhole : R → Bool
  /-- The index below a number, `0` for a negative one, kept inside an index word. -/
  toNat : R → Nat

attribute [reducible, instance] Scalar.decidableLt Scalar.decidableLe

/-- A number type with the functions that Poisson probabilities need. -/
class Analytic (R : Type) extends Scalar R where
  exp : R → R
  log : R → R
  sqrt : R → R
  ceil : R → R
  ofNat : Nat → R

namespace Scalar

variable {R : Type} [Scalar R]

/-- The total of a list, added from left to right. -/
@[specialize]
def sum (terms : List R) : R := terms.foldl (· + ·) emptySum

/-- The larger of two numbers, and the second of equal ones. A number that is not equal to itself
is passed over. -/
@[specialize]
def larger (a b : R) : R :=
  if b == b then if b < a then a else b else a

/-- The smaller of two numbers, and the second of equal ones. A number that is not equal to itself
is passed over. -/
@[specialize]
def smaller (a b : R) : R :=
  if b == b then if a < b then a else b else a

@[specialize]
def magnitude (a : R) : R := if a < 0 then -a else a

end Scalar

/-- Whether a float has no fractional part.  From `2 ^ 53` on none of them has one. -/
def Float.isWhole (x : Float) : Bool :=
  x.abs.toUInt64.toFloat == x.abs || 9007199254740992 ≤ x.abs

instance : Scalar Float where
  zero := 0
  one := 1
  emptySum := -0.0
  infinity := 1.0 / 0.0
  isFinite := Float.isFinite
  isWhole := Float.isWhole
  toNat x := x.toUInt64.toNat

instance : Analytic Float where
  exp := Float.exp
  log := Float.log
  sqrt := Float.sqrt
  ceil := Float.ceil
  ofNat := Float.ofNat

end Markov
