/-!
# Shortest decimals of binary numbers

A finite binary number `m · 2 ^ q` is read back from every decimal inside an
interval around it.  `shortest` gives the decimal with the fewest digits in
that interval, and of several the one nearest to the number.  All comparisons
are exact, on natural numbers.
-/

namespace Markov.Decimal

/-- The decimal `digits · 10 ^ exponent`. -/
structure Digits where
  digits : Nat
  exponent : Int
  deriving Repr, DecidableEq

/-- A non-negative binary number `mantissa · 2 ^ exponent`. -/
structure Binary where
  mantissa : Nat
  exponent : Int
  /-- Whether the next smaller number is only half as far away as the next larger one. -/
  narrow : Bool
  deriving Repr, DecidableEq

/-- The magnitude of a finite double-precision number. -/
def Binary.ofFloat (x : Float) : Binary :=
  let bits := x.toBits.toNat
  let implicit := Nat.pow 2 52
  let fraction := bits % implicit
  let biased := bits / implicit % Nat.pow 2 11
  if biased = 0 then ⟨fraction, -1074, false⟩
  else ⟨implicit + fraction, (biased : Int) - 1075, fraction = 0⟩

/-- A positive number `num / den` with the interval from `low / den` to `high / den` of the
numbers that are read back as it. -/
structure Interval where
  num : Nat
  den : Nat
  low : Nat
  high : Nat
  /-- Whether the two ends belong to the interval. -/
  closed : Bool

def Binary.interval (b : Binary) : Interval :=
  let scale := Nat.pow 2 b.exponent.toNat
  { num := 4 * b.mantissa * scale
    den := 4 * Nat.pow 2 (-b.exponent).toNat
    low := (4 * b.mantissa - if b.narrow then 1 else 2) * scale
    high := (4 * b.mantissa + 2) * scale
    closed := b.mantissa % 2 = 0 }

/-- The multiple of `10 ^ exponent` inside the interval that is nearest to its number, if one of
the number's two neighbours among these multiples lies there.  The upper one wins a tie. -/
def Interval.multiple? (i : Interval) (exponent : Int) : Option Nat :=
  let shift := Nat.pow 10 (-exponent).toNat
  let unit := i.den * Nat.pow 10 exponent.toNat
  let target := i.num * shift
  let below := target / unit
  let inside (k : Nat) : Bool :=
    if i.closed then i.low * shift ≤ k * unit && k * unit ≤ i.high * shift
    else i.low * shift < k * unit && k * unit < i.high * shift
  match inside below, inside (below + 1) with
  | true, true => some (if 2 * (target - below * unit) < unit then below else below + 1)
  | true, false => some below
  | false, true => some (below + 1)
  | false, false => none

/-- How often `num` has to be multiplied by ten until it reaches `den`, at most `fuel` times. -/
def shortfall (den : Nat) : Nat → Nat → Nat
  | 0, _ => 0
  | fuel + 1, num => if den ≤ num then 0 else shortfall den fuel (num * 10) + 1

/-- The number of decimal places before the point of a number, negative for zeros behind it. -/
def Interval.places (i : Interval) : Int :=
  if i.den ≤ i.num then (Nat.repr (i.num / i.den)).length
  else 1 - (shortfall i.den 400 i.num : Int)

/-- Drops trailing zeros, at most `fuel` of them. -/
def Digits.trim : Nat → Digits → Digits
  | 0, d => d
  | fuel + 1, d =>
    if d.digits % 10 = 0 then trim fuel ⟨d.digits / 10, d.exponent + 1⟩ else d

/-- The first grid of decimals that has a point in the interval, starting with `count` digits of a
number with the given places before the point. -/
def Interval.search (i : Interval) (places : Int) : Nat → Nat → Digits
  | 0, count => ⟨i.num * Nat.pow 10 count / i.den, -(count : Int)⟩
  | fuel + 1, count =>
    let exponent := places - count
    match i.multiple? exponent with
    | some digits => Digits.trim 20 ⟨digits, exponent⟩
    | none => i.search places fuel (count + 1)

/-- The decimal with the fewest digits that is read back as the number. -/
def shortest (b : Binary) : Digits :=
  if b.mantissa = 0 then ⟨0, 0⟩
  else
    let interval := b.interval
    interval.search interval.places 17 1

/-- The number in units of `10 ^ -places`, rounded to the nearest and to the even one of two. -/
def rounded (b : Binary) (places : Nat) : Nat :=
  let num := b.mantissa * Nat.pow 2 b.exponent.toNat * Nat.pow 10 places
  let den := Nat.pow 2 (-b.exponent).toNat
  let below := num / den
  let rest := 2 * (num % den)
  if rest < den then below
  else if den < rest then below + 1
  else if below % 2 = 0 then below else below + 1

end Markov.Decimal
