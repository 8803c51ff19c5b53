import Markov.Failure
import Markov.Scalar
import Markov.Word

/-!
# Statistics of a solver run
-/

namespace Markov

/-- What a solver tells about its work. -/
structure Stats (R : Type) where
  /-- The method that was used, empty if none was needed. -/
  method : String
  iterations : Nat
  /-- The difference of the last two iterates. -/
  lastDelta : R
  /-- The number of states that were known to have the lowest value, or an infinite one. -/
  numNo : Nat := 0
  /-- The number of states that were known to have the highest value, or to be targets. -/
  numYes : Nat := 0
  deriving Repr

namespace Stats

variable {R : Type} [Scalar R]

/-- The statistics of no work at all. -/
def idle : Stats R := { method := "", iterations := 0, lastDelta := 0 }

/-- The statistics of a number of steps without a test for convergence. -/
def steps (method : String) (iterations : Nat) : Stats R :=
  { method := method, iterations := iterations, lastDelta := 0 }

/-- The statistics of one run after another. -/
def merge {ε : Type} (first second : Stats R) : Attempt ε (Stats R) := do
  Attempt.require (Word.isIndex (first.iterations + second.iterations))
  return {
    method := if second.method.isEmpty then first.method else second.method
    iterations := first.iterations + second.iterations
    lastDelta := Scalar.larger first.lastDelta second.lastDelta
    numNo := max first.numNo second.numNo
    numYes := max first.numYes second.numYes }

end Stats

end Markov
