import Markov.CheckError
import Markov.Model

/-!
# Validity of properties

Whether a property makes sense for a model, decided before any value is
computed.
-/

namespace Markov.Property

variable {R : Type} [Scalar R]

/-- Choices are resolved in a direction exactly where there are choices. -/
def checkDirection (kind : ModelKind) (operator : Operator) :
    Option Direction → Except (Mismatch R) Unit
  | some direction =>
    if kind.isNondeterministic then .ok () else .error (.directionUnused operator direction)
  | none => if kind.isNondeterministic then .error (.directionMissing operator) else .ok ()

/-- Bounds are finite and not negative, and in discrete time they count steps. -/
def checkBound (kind : ModelKind) (bound : R) : Except (Mismatch R) Unit :=
  if !Scalar.isFinite bound || bound < 0 then .error (.invalidBound bound)
  else if !kind.isContinuous && !Scalar.isWhole bound then .error (.fractionalBound bound)
  else .ok ()

def checkPath (kind : ModelKind) (path : PathFormula R) : Except (Mismatch R) Unit := do
  if let some bound := path.bound? then
    checkBound kind bound
  match kind, path with
  | .ctmdp, .next _ => throw .nextUnsupported
  | _, _ => return

def checkRewardPath (kind : ModelKind) : RewardPath R → Except (Mismatch R) Unit
  | .reach _ => return
  | .cumulative bound => do
    checkBound kind bound
    if kind = .ctmdp then
      throw .cumulativeUnsupported

/-- Why a property makes no sense for a model, if it does not. -/
def mismatch? (property : Property R) (m : Model R) : Except (Mismatch R) Unit :=
  match property with
  | state _ => return
  | prob direction _ path => do
    checkDirection m.kind .probability direction
    checkPath m.kind path
  | reward rewards direction _ path => do
    checkDirection m.kind .reward direction
    if (m.rewardStructure? rewards).isNone then
      throw (.noRewards rewards)
    checkRewardPath m.kind path

/-- Checks that a property makes sense for a model. -/
def checkValid (property : Property R) (m : Model R) : Except (CheckError R) Unit :=
  match property.mismatch? m with
  | .ok () => .ok ()
  | .error cause => .error (.mismatch m.kind cause)

end Markov.Property
