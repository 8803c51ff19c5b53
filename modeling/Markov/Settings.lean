import Markov.ModelKind
import Markov.Scalar
import Markov.Text.Quoted

/-!
# Settings and options

Settings are texts and numbers as a user gives them.  They are resolved, for
one kind of model, into the typed options that the solvers work with.
-/

namespace Markov

/-- How the difference of two iterates is measured. -/
inductive Criterion where
  /-- The distance of the two values. -/
  | absolute
  /-- The distance in proportion to the new value. -/
  | relative
  deriving Repr, DecidableEq

namespace Criterion

def name : Criterion → String
  | absolute => "Absolute"
  | relative => "Relative"

def ofName? (text : String) : Option Criterion := [absolute, relative].find? (·.name == text)

end Criterion

/-- The methods that solve fixed-point equations. -/
inductive Method where
  | valueIteration
  | gaussSeidel
  | policyIteration
  | modifiedPolicyIteration
  deriving Repr, DecidableEq

namespace Method

def all : List Method := [valueIteration, gaussSeidel, policyIteration, modifiedPolicyIteration]

def name : Method → String
  | valueIteration => "Value iteration"
  | gaussSeidel => "Gauss-Seidel"
  | policyIteration => "Policy iteration"
  | modifiedPolicyIteration => "Modified policy iteration"

def ofName? (text : String) : Option Method := all.find? (·.name == text)

/-- The method that a setting selects.  Policies are only improved on decision processes in
discrete time, and value iteration stands in for whatever is not available. -/
def ofSetting (kind : ModelKind) (text : String) : Method :=
  match ofName? text with
  | some gaussSeidel => gaussSeidel
  | some policyIteration => if kind = .mdp then policyIteration else valueIteration
  | some modifiedPolicyIteration =>
    if kind = .mdp then modifiedPolicyIteration else valueIteration
  | _ => valueIteration

end Method

/-- The options of a solver. -/
structure Options (R : Type) where
  /-- Whether probabilities zero and one are found on the graph first. -/
  precomputation : Bool
  criterion : Criterion
  /-- An iteration has settled when its last difference is below this number. -/
  tolerance : R
  maxIterations : Nat
  method : Method
  /-- The sweeps between two improvements of a policy in modified policy iteration. -/
  sweeps : Nat
  /-- Whether bounded queries on decision processes produce a strategy. -/
  generateStrategy : Bool
  deriving Repr

def Options.default : Options Float where
  precomputation := true
  criterion := .relative
  tolerance := 1e-6
  maxIterations := 10000
  method := .valueIteration
  sweeps := 20
  generateStrategy := false

/-- The settings of a user. -/
structure Settings (R : Type) where
  precomputation : Bool
  criterion : String
  tolerance : R
  maxIterations : Nat
  /-- The method for chains. -/
  chainMethod : String
  /-- The method for decision processes and games. -/
  decisionMethod : String
  sweeps : Nat
  generateStrategy : Bool
  deriving Repr

/-- A setting without a meaning. -/
inductive SettingError (R : Type) where
  | criterion (text : String)
  | tolerance (value : R)
  | maxIterations
  deriving Repr

namespace Settings

def default : Settings Float where
  precomputation := true
  criterion := "Relative"
  tolerance := 1e-6
  maxIterations := 10000
  chainMethod := "Jacobi"
  decisionMethod := "Value iteration"
  sweeps := 20
  generateStrategy := false

variable {R : Type} [Scalar R]

def methodSetting (settings : Settings R) : ModelKind → String
  | .dtmc | .ctmc => settings.chainMethod
  | .mdp | .ctmdp | .stpg => settings.decisionMethod

/-- The options that the settings mean for a kind of models. -/
def resolve (settings : Settings R) (kind : ModelKind) : Except (SettingError R) (Options R) := do
  let criterion ← match Criterion.ofName? settings.criterion with
    | some criterion => pure criterion
    | none => throw (.criterion settings.criterion)
  if !(Scalar.isFinite settings.tolerance && 0 < settings.tolerance) then
    throw (.tolerance settings.tolerance)
  if settings.maxIterations = 0 then
    throw .maxIterations
  return {
    precomputation := settings.precomputation
    criterion := criterion
    tolerance := settings.tolerance
    maxIterations := settings.maxIterations
    method := .ofSetting kind (settings.methodSetting kind)
    sweeps := max settings.sweeps 1
    generateStrategy := settings.generateStrategy }

end Settings

end Markov
