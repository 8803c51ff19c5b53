import Markov.Scalar

/-!
# Poisson probabilities
-/

namespace Markov.Poisson

variable {R : Type} [Analytic R]

/-- The probability of `count` jumps, given the logarithm of the factorial. -/
def term (mean logMean : R) (count : Nat) (logFactorial : R) : R :=
  Analytic.exp (-mean + Analytic.ofNat count * logMean - logFactorial)

/-- The probabilities from `count` on, put before those already `found`, until their total reaches
`enough`. -/
def terms (mean logMean enough : R) : Nat → Nat → R → R → List R → List R
  | 0, _, _, _, found => found
  | fuel + 1, count, logFactorial, total, found =>
    let logFactorial :=
      if count = 0 then logFactorial else logFactorial + Analytic.log (Analytic.ofNat count)
    let probability := term mean logMean count logFactorial
    let total := total + probability
    if enough ≤ total then probability :: found
    else terms mean logMean enough fuel (count + 1) logFactorial total (probability :: found)

/-- The probabilities of `0, 1, …` jumps for a mean number of jumps, up to the first number at
which at most `epsilon` is missing. -/
def weights (mean epsilon : R) : List R :=
  if mean ≤ 0 then [1]
  else
    let spread := Analytic.ofNat 10 * Analytic.sqrt mean
    let limit := Scalar.toNat (Analytic.ceil (mean + spread + Analytic.ofNat 100))
    (terms mean (Analytic.log mean) (1 - epsilon) (limit + 1) 0 0 0 []).reverse

end Markov.Poisson
