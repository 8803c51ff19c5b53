import Markov.Expr

/-!
# Formulas

A state formula describes a set of states, a path formula a set of runs, and a
reward path the part of a run in which rewards are collected.  Bounds count
steps in discrete time and are points in time in continuous time.
-/

namespace Markov

inductive StateFormula where
  | top
  | bottom
  | label (name : String)
  /-- A truth-valued expression over the variables of a state. -/
  | expr (e : Expr)
  | not (inner : StateFormula)
  | and (left right : StateFormula)
  | or (left right : StateFormula)
  deriving Repr

namespace StateFormula

/-- The negation of a formula, without a double negation at its front. -/
def negated : StateFormula → StateFormula
  | not inner => inner
  | top => bottom
  | bottom => top
  | formula => not formula

def render : StateFormula → String
  | top => "true"
  | bottom => "false"
  | label name => "\"" ++ name ++ "\""
  | expr e => e.render
  | not inner => "!" ++ inner.render
  | and left right => "(" ++ left.render ++ " & " ++ right.render ++ ")"
  | or left right => "(" ++ left.render ++ " | " ++ right.render ++ ")"

end StateFormula

inductive PathFormula (R : Type) where
  /-- The next state satisfies the formula. -/
  | next (target : StateFormula)
  /-- A state of `right` is reached through states of `left`. -/
  | holdsUntil (left right : StateFormula) (bound : Option R)
  /-- Every state satisfies the formula. -/
  | globally (inner : StateFormula) (bound : Option R)
  deriving Repr

namespace PathFormula

variable {R : Type}

/-- A state that satisfies the formula is reached. -/
def eventually (target : StateFormula) (bound : Option R) : PathFormula R :=
  holdsUntil .top target bound

def bound? : PathFormula R → Option R
  | next _ => none
  | holdsUntil _ _ bound => bound
  | globally _ bound => bound

def renderBound : Option Float → String
  | some bound => "<=" ++ Decimal.render Decimal.plain bound
  | none => ""

def render : PathFormula Float → String
  | next target => "X " ++ target.render
  | holdsUntil left right bound =>
    left.render ++ " U" ++ renderBound bound ++ " " ++ right.render
  | globally inner bound => "G" ++ renderBound bound ++ " " ++ inner.render

end PathFormula

inductive RewardPath (R : Type) where
  /-- Rewards are collected until a state that satisfies the formula is reached. -/
  | reach (target : StateFormula)
  /-- Rewards are collected up to a bound. -/
  | cumulative (bound : R)
  deriving Repr

def RewardPath.render : RewardPath Float → String
  | reach target => "F " ++ target.render
  | cumulative bound => "C<=" ++ Decimal.render Decimal.plain bound

end Markov
