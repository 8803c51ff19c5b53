import Markov.CheckError
import Markov.Model

/-!
# Satisfaction of state formulas

The set of states of a model that satisfy a formula.  A label means a set that
is given or that every model has, and otherwise the formula that defines it.
Definitions may use other defined labels, but not themselves.
-/

namespace Markov

/-- What the labels and constants of formulas mean. -/
structure Interpretation (R : Type) where
  model : Model R
  labels : Labels
  properties : PropertySet R

namespace Interpretation

variable {R : Type}

/-- Whether a valuation satisfies an expression. -/
def holds (i : Interpretation R) (e : Expr) (v : Valuation) : Attempt (CheckError R) Bool :=
  Attempt.mapCause (fun cause =>
    match cause with
    | .typeMismatch _ _ => .malformed (.notBoolean e cause)
    | _ => .eval cause) (e.evalBool (.of v i.properties.constants))

/-- The states whose valuations satisfy an expression. -/
def statesOf (i : Interpretation R) (e : Expr) : Attempt (CheckError R) BitSet := do
  let n := i.model.numStates
  match i.model.valuations with
  | none => Attempt.fail (.malformed (.noVariables e))
  | some valuations =>
    if valuations.length ≠ n then
      Attempt.fail (.invalidModel (.valuations n valuations.length))
    else
      let truths ← valuations.mapM (i.holds e)
      return .ofList ((truths.zipIdx.filter Prod.fst).map Prod.snd)

/-- The states that satisfy a formula, given the sets of its labels. -/
def evalWith (i : Interpretation R) (sets : String → Attempt (CheckError R) BitSet) :
    StateFormula → Attempt (CheckError R) BitSet
  | .top => return .full i.model.numStates
  | .bottom => return .withCapacity i.model.numStates
  | .label name => sets name
  | .expr e => i.statesOf e
  | .not inner => do
    let states ← i.evalWith sets inner
    return states.complement i.model.numStates
  | .and left right => do
    let a ← i.evalWith sets left
    let b ← i.evalWith sets right
    return a ∩ b
  | .or left right => do
    let a ← i.evalWith sets left
    let b ← i.evalWith sets right
    return a ∪ b

/-- The set of a label, while the labels `defining` are being expanded.  Every expansion adds one
defined label to these, so `fuel` need not exceed the number of definitions. -/
def labelSet (i : Interpretation R) : Nat → List String → String →
    Attempt (CheckError R) BitSet
  | fuel, defining, name =>
    match i.model.labelled? i.labels name with
    | some states => return states
    | none =>
      match i.properties.definition? name with
      | none => Attempt.fail (.malformed (.undefinedLabel name))
      | some definition =>
        if defining.contains name then Attempt.fail (.malformed (.circularLabel name))
        else match fuel with
          | 0 => Attempt.fail (.malformed (.circularLabel name))
          | fuel + 1 => i.evalWith (i.labelSet fuel (name :: defining)) definition

/-- The states that satisfy a formula. -/
def satisfying (i : Interpretation R) (formula : StateFormula) : Attempt (CheckError R) BitSet :=
  i.evalWith (i.labelSet i.properties.definitions.length []) formula

end Interpretation

end Markov
