import Markov.Satisfaction
import Markov.Solver

/-!
# Checkers

A checker computes the values of the basic operators for one kind of models.
Everything else is the same for all kinds: formulas become sets, `G` is reduced
to the until operator, and values become a verdict.
-/

namespace Markov

/-- The procedures for one kind of models.  Each is given the objective of the query. -/
structure Checker (R : Type) where
  kind : ModelKind
  options : Options R
  next : Model R → Option Direction → BitSet → Attempt (CheckError R) (Computed R)
  holdsUntil : Model R → Option Direction → BitSet → BitSet → Option R →
    Attempt (CheckError R) (Computed R)
  reachReward : Model R → Option Direction → RewardStructure R → BitSet →
    Attempt (CheckError R) (Computed R)
  cumulativeReward : Model R → Option Direction → RewardStructure R → R →
    Attempt (CheckError R) (Computed R)

/-- What a check says about the initial states. -/
inductive Answer (R : Type) where
  /-- The value of the only initial state. -/
  | scalar (value : R)
  /-- Whether the property holds in every initial state. -/
  | truth (holds : Bool)
  /-- The values of all states, if there is not exactly one initial state. -/
  | vector (values : Array R)

namespace Answer

def truth? {R : Type} : Answer R → Option Bool
  | truth holds => some holds
  | _ => none

def scalar? {R : Type} : Answer R → Option R
  | scalar value => some value
  | _ => none

def render : Answer Float → String
  | scalar value => Decimal.render Decimal.plain value
  | truth holds => toString holds
  | vector values =>
    "[" ++ ", ".intercalate (values.toList.map (Decimal.render Decimal.member)) ++ "]"

end Answer

/-- What a check says about all states. -/
inductive Extent (R : Type) where
  | values (values : Array R)
  | states (set : BitSet)

/-- The result of a check. -/
structure Verdict (R : Type) where
  answer : Answer R
  extent : Extent R
  stats : Stats R
  kind : ModelKind
  options : Options R
  strategy : Option CountdownStrategy

namespace Checker

variable {R : Type} [Scalar R]

/-- The values of a path formula. -/
def pathValues (c : Checker R) (i : Interpretation R) (objective : Option Direction) :
    PathFormula R → Attempt (CheckError R) (Computed R)
  | .next target => do
    let target ← i.satisfying target
    c.next i.model objective target
  | .holdsUntil left right bound => do
    let left ← i.satisfying left
    let right ← i.satisfying right
    c.holdsUntil i.model objective left right bound
  | .globally inner bound => do
    let n := i.model.numStates
    let inner ← i.satisfying inner
    let computed ← c.holdsUntil i.model (objective.map Direction.flip) (.full n)
      (inner.complement n) bound
    return { computed with values := computed.values.map (1 - ·) }

/-- The values of a reward property. -/
def rewardValues (c : Checker R) (i : Interpretation R) (objective : Option Direction)
    (rewards : RewardStructure R) : RewardPath R → Attempt (CheckError R) (Computed R)
  | .reach target => do
    let target ← i.satisfying target
    c.reachReward i.model objective rewards target
  | .cumulative bound => c.cumulativeReward i.model objective rewards bound

/-- The states whose values stand the comparison with a threshold. -/
def meeting (comparison : Comparison) (threshold : R) (values : Array R) : BitSet :=
  .ofList ((List.range values.size).filter fun state =>
    comparison.holds (values.getD state 0) threshold)

/-- What the values of a query say about the initial states. -/
def answerQuery (initial : BitSet) (values : Array R) : Attempt (CheckError R) (Answer R) :=
  match initial.toList with
  | [state] => do
    let value ← Attempt.entry values[state]?
    return .scalar value
  | _ => return .vector values

/-- The verdict on a property with values. -/
def judge (c : Checker R) (m : Model R) (threshold : Option (Comparison × R))
    (computed : Computed R) : Attempt (CheckError R) (Verdict R) := do
  let verdict (answer : Answer R) (extent : Extent R) : Verdict R :=
    { answer := answer
      extent := extent
      stats := computed.stats
      kind := c.kind
      options := c.options
      strategy := computed.strategy }
  match threshold with
  | some (comparison, threshold) =>
    let states := meeting comparison threshold computed.values
    return verdict (.truth (m.initial.isSubset states)) (.states states)
  | none =>
    let answer ← answerQuery m.initial computed.values
    return verdict answer (.values computed.values)

/-- Checks a property. -/
def check (c : Checker R) (i : Interpretation R) (property : Property R) :
    Attempt (CheckError R) (Verdict R) :=
  match property with
  | .state formula => do
    let states ← i.satisfying formula
    return {
      answer := .truth (i.model.initial.isSubset states)
      extent := .states states
      stats := .idle
      kind := c.kind
      options := c.options
      strategy := none }
  | .prob objective threshold path => do
    let computed ← c.pathValues i objective path
    c.judge i.model threshold computed
  | .reward rewards objective threshold path =>
    match i.model.rewardStructure? rewards with
    | none => Attempt.fail (.malformed (.unknownRewards property))
    | some rewards => do
      let computed ← c.rewardValues i objective rewards path
      c.judge i.model threshold computed

/-- The direction that a checker of models with choices needs. -/
def requireDirection (kind : ModelKind) : Option Direction → Attempt (CheckError R) Direction
  | some direction => return direction
  | none => Attempt.fail (.mismatch kind .directionRequired)

/-- The number of steps of a bound in discrete time. -/
def stepBound (kind : ModelKind) (bound : R) : Attempt (CheckError R) Nat :=
  if Scalar.isFinite bound && 0 ≤ bound && Scalar.isWhole bound then
    return Scalar.toNat bound
  else Attempt.fail (.mismatch kind (.invalidStepBound bound))

end Checker

end Markov
