import Markov.Bellman.Solve
import Markov.Property
import Markov.Strategy.Error

/-!
# Errors of model checking

Errors are causes, and `message` gives each its wording.
-/

namespace Markov

/-- The operator of a property that has a value. -/
inductive Operator where
  | probability
  | reward
  deriving Repr, DecidableEq

def Operator.symbol : Operator → String
  | probability => "P"
  | reward => "R"

/-- Why a property makes no sense for a model. -/
inductive Mismatch (R : Type) where
  /-- There is nothing to optimise. -/
  | directionUnused (operator : Operator) (direction : Direction)
  | directionMissing (operator : Operator)
  | invalidBound (bound : R)
  | fractionalBound (bound : R)
  | nextUnsupported
  | noRewards (name : Option String)
  | cumulativeUnsupported
  /-- A checker was not told the direction that it needs. -/
  | directionRequired
  /-- A checker was given a bound that counts no steps. -/
  | invalidStepBound (bound : R)
  /-- A checker has no procedure for an operator. -/
  | noProcedure (what : String)
  deriving Repr

def Mismatch.message : Mismatch Float → String
  | directionUnused operator direction =>
    "cannot use " ++ operator.symbol ++ direction.name ++ " on a model without nondeterminism"
  | directionMissing operator =>
    operator.symbol ++ " operator requires min or max on nondeterministic models"
  | invalidBound bound => "invalid bound " ++ Decimal.render Decimal.plain bound
  | fractionalBound bound => "non-integer step bound " ++ Decimal.render Decimal.plain bound
  | nextUnsupported => "next-state operator is not supported"
  | noRewards (some name) => "model has no reward structure \"" ++ name ++ "\""
  | noRewards none => "model has no rewards"
  | cumulativeUnsupported => "cumulative rewards are not supported"
  | directionRequired => "min or max is required"
  | invalidStepBound bound => "invalid step bound " ++ Decimal.render Decimal.plain bound
  | noProcedure what => what ++ " is not supported"

/-- Why a property has no meaning on a model. -/
inductive Malformed (R : Type) where
  | undefinedLabel (name : String)
  | circularLabel (name : String)
  /-- An expression over variables, on a model without variables. -/
  | noVariables (e : Expr)
  | notBoolean (e : Expr) (cause : EvalError)
  | unknownRewards (property : Property R)
  deriving Repr

def Malformed.message : Malformed Float → String
  | undefinedLabel name => "undefined label \"" ++ name ++ "\""
  | circularLabel name => "label \"" ++ name ++ "\" is defined in terms of itself"
  | noVariables e => e.render ++ " needs state variables, the model has none"
  | notBoolean e cause => e.render ++ " is not a boolean formula: " ++ cause.message
  | unknownRewards property => "unknown reward structure in " ++ property.render

/-- What is wrong with a model. -/
inductive ModelDefect where
  /-- A state of a chain has several choices. -/
  | choices (state : Nat) (kind : ModelKind) (count : Nat)
  | valuations (states found : Nat)
  /-- The choices that were recorded make no strategy. -/
  | strategy (error : TableError)
  deriving Repr

def ModelDefect.message : ModelDefect → String
  | choices state kind count =>
    s!"state {state} of a " ++ kind.name ++ s!" has {count} choices"
  | valuations states found => s!"the model has {states} states but {found} state valuations"
  | strategy error => error.message

def SettingError.key {R : Type} : SettingError R → String
  | criterion _ => "term_crit"
  | tolerance _ => "term_crit_param"
  | maxIterations => "max_iters"

/-- The rejected value of a setting. -/
def SettingError.value : SettingError Float → String
  | criterion text => text
  | tolerance value => Decimal.render Decimal.plain value
  | maxIterations => "0"

def NonConvergence.message (n : NonConvergence Float) : String :=
  n.method.name ++ s!" did not converge after {n.iterations} iterations (last delta " ++
    Decimal.render Decimal.scientific n.lastDelta ++ ")"

/-- Why a property was not checked. -/
inductive CheckError (R : Type) where
  | mismatch (kind : ModelKind) (cause : Mismatch R)
  | unsupportedKind (name : String)
  | configuration (cause : SettingError R)
  | malformed (cause : Malformed R)
  | invalidModel (defect : ModelDefect)
  | nonConvergence (report : NonConvergence R)
  | eval (cause : EvalError)
  deriving Repr

def CheckError.message : CheckError Float → String
  | mismatch kind cause => "property is not valid for " ++ kind.name ++ " models: " ++ cause.message
  | unsupportedKind name => "unsupported model type: " ++ name
  | configuration cause =>
    "invalid value " ++ Text.quoted cause.value ++ " for setting " ++ cause.key
  | malformed cause => "malformed property: " ++ cause.message
  | invalidModel defect => "invalid model: " ++ defect.message
  | nonConvergence report => report.message
  | eval cause => cause.message

/-- The kind of models with a given name. -/
def ModelKind.parse {R : Type} (text : String) : Except (CheckError R) ModelKind :=
  match ofName? text with
  | some kind => .ok kind
  | none => .error (.unsupportedKind text)

end Markov
