import Markov.Checker.Continuous
import Markov.Checker.Discrete
import Markov.Property.Validity

/-!
# Model checking

The entry point: a property is validated against a model, the settings are
resolved for its kind, and the checker of that kind is run.
-/

namespace Markov

variable {R : Type} [Analytic R]

/-- The checker for a kind of models. -/
def Checker.ofKind (kind : ModelKind) (options : Options R) : Checker R :=
  match kind with
  | .dtmc => .dtmc options
  | .mdp => .mdp options
  | .ctmc => .ctmc options
  | .ctmdp => .ctmdp options
  | .stpg => .stpg options

/-- Checks that states of chains do not have several choices. -/
def Model.checkStructure (m : Model R) : Except (CheckError R) Unit :=
  if m.kind.isNondeterministic then .ok ()
  else match (List.range m.numStates).find? fun state => 1 < m.numChoices state with
    | some state => .error (.invalidModel (.choices state m.kind (m.numChoices state)))
    | none => .ok ()

/-- The options that the settings mean for a kind of models. -/
def Settings.optionsFor (settings : Settings R) (kind : ModelKind) :
    Attempt (CheckError R) (Options R) :=
  Attempt.mapCause .configuration (Attempt.lift (settings.resolve kind))

/-- Checks a property on a model. -/
def Settings.modelCheck (settings : Settings R) (i : Interpretation R) (property : Property R) :
    Attempt (CheckError R) (Verdict R) := do
  Attempt.lift (property.checkValid i.model)
  Attempt.lift i.model.checkStructure
  let options ← settings.optionsFor i.model.kind
  (Checker.ofKind i.model.kind options).check i property

end Markov
