import Markov.Expr.Eval
import Markov.Formula
import Markov.Objective

/-!
# Properties

A property asks for the probability of a path formula or for an expected
reward, possibly compared with a threshold, or whether a state formula holds.
Properties come in sets that also define constants and labels.
-/

namespace Markov

inductive Property (R : Type) where
  | prob (direction : Option Direction) (threshold : Option (Comparison × R))
      (path : PathFormula R)
  /-- The rewards are those of the named structure, or of the first one. -/
  | reward (rewards : Option String) (direction : Option Direction)
      (threshold : Option (Comparison × R)) (path : RewardPath R)
  | state (formula : StateFormula)
  deriving Repr

namespace Property

variable {R : Type}

/-- Compares the value of a property with a threshold, if it has a value. -/
def withThreshold (comparison : Comparison) (threshold : R) : Property R → Property R
  | prob direction _ path => prob direction (some (comparison, threshold)) path
  | reward rewards direction _ path =>
    reward rewards direction (some (comparison, threshold)) path
  | state formula => state formula

/-- Selects the reward structure of a property about rewards. -/
def withRewards (name : String) : Property R → Property R
  | reward _ direction threshold path => reward (some name) direction threshold path
  | other => other

/-- What is asked about a value. -/
def renderQuery (direction : Option Direction) (threshold : Option (Comparison × Float)) :
    String :=
  (direction.map Direction.name).getD "" ++
    match threshold with
    | some (comparison, value) => comparison.symbol ++ Decimal.render Decimal.plain value
    | none => "=?"

def render : Property Float → String
  | prob direction threshold path =>
    "P" ++ renderQuery direction threshold ++ " [ " ++ path.render ++ " ]"
  | reward rewards direction threshold path =>
    let selected := match rewards with
      | some name => "\x7b\"" ++ name ++ "\"\x7d"
      | none => ""
    "R" ++ selected ++ renderQuery direction threshold ++ " [ " ++ path.render ++ " ]"
  | state formula => formula.render

end Property

/-- Constants, label definitions and named properties that go with a model. -/
structure PropertySet (R : Type) where
  constants : Constants := []
  /-- The formulas that define labels; of two with one name the first counts. -/
  definitions : List (String × StateFormula) := []
  properties : List (String × Property R) := []

namespace PropertySet

variable {R : Type}

def definition? (set : PropertySet R) (name : String) : Option StateFormula :=
  set.definitions.lookup name

def addProperty (set : PropertySet R) (name : String) (property : Property R) : PropertySet R :=
  { set with properties := set.properties ++ [(name, property)] }

/-- The first property with a name. -/
def property? (set : PropertySet R) (name : String) : Option (Property R) :=
  set.properties.lookup name

end PropertySet

end Markov
