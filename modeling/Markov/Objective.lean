import Markov.Scalar

/-!
# Objectives

A query on a model with choices asks for the least or the greatest value, and
a threshold compares the value of a state with a number.
-/

namespace Markov

/-- The direction in which choices are resolved. -/
inductive Direction where
  | min
  | max
  deriving Repr, DecidableEq

namespace Direction

variable {R : Type} [Scalar R]

def name : Direction → String
  | min => "min"
  | max => "max"

def ofName? (text : String) : Option Direction := [min, max].find? (·.name == text)

def flip : Direction → Direction
  | min => max
  | max => min

/-- Whether a value is a strict improvement on another one. -/
@[specialize]
def better : Direction → R → R → Bool
  | min, candidate, current => candidate < current
  | max, candidate, current => candidate > current

/-- The value on which every other one improves. -/
def worst : Direction → R
  | min => Scalar.infinity
  | max => -Scalar.infinity

/-- The better one of two values. -/
def pick : Direction → R → R → R
  | min => Scalar.smaller
  | max => Scalar.larger

end Direction

/-- The comparison of a value with a threshold. -/
inductive Comparison where
  | lt
  | le
  | gt
  | ge
  deriving Repr, DecidableEq

namespace Comparison

def all : List Comparison := [lt, le, gt, ge]

def symbol : Comparison → String
  | lt => "<"
  | le => "<="
  | gt => ">"
  | ge => ">="

def ofSymbol? (text : String) : Option Comparison := all.find? (·.symbol == text)

def holds {R : Type} [Scalar R] : Comparison → R → R → Bool
  | lt, value, threshold => value < threshold
  | le, value, threshold => value ≤ threshold
  | gt, value, threshold => value > threshold
  | ge, value, threshold => value ≥ threshold

end Comparison

end Markov
